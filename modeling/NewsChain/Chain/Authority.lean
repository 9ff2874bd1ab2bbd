import NewsChain.Chain.Signature

/-!
# The signers of a transaction

`signed_transaction::verify_authority` for any two account-to-key lookups. The operations are
visited for the names that have to sign, every name's key has to be among the recovered keys and is
marked there, and a key left unmarked is one too many.
-/

namespace NewsChain

/-- `get_key_by_name`. -/
abbrev GetKeyByName := AccountName → Except Exc PublicKey

/-- `get_sign_name`. -/
def Operation.getSignName (op : Operation) (names : List AccountName) : List AccountName :=
  flatInsert op.signName names

/-- `base_operation::get_sign_owner`, which every operation inherits. -/
def Operation.getSignOwner (_ : Operation) (names : List AccountName) : List AccountName := names

/-- The names `operation_get_sign_name_visitor` collects, posting and owner. -/
def signNames (operations : List Operation) : List AccountName × List AccountName :=
  operations.foldl (fun names op => (op.getSignName names.1, op.getSignOwner names.2)) ([], [])

/-- `std::map<public_key_type, bool> used`. Nothing depends on the order of its keys. -/
abbrev UsedKeys := List (PublicKey × Bool)

/-- `used[pk] = v`. -/
def UsedKeys.assign (used : UsedKeys) (pk : PublicKey) (v : Bool) : UsedKeys :=
  (pk, v) :: used.filter (·.1 ≠ pk)

/-- `used.find( pk ) != used.end()`. -/
def UsedKeys.contains (used : UsedKeys) (pk : PublicKey) : Bool := used.any (·.1 == pk)

/-- One of the loops over the names: the key of each name is there, and is marked. -/
def useKeys (getKey : GetKeyByName) (message : String) :
    List AccountName → UsedKeys → Except Exc UsedKeys
  | [], used => .ok used
  | name :: names, used => do
    let pk ← getKey name
    if used.contains pk then useKeys getKey message names (used.assign pk true)
    else .error (.assertion message)

variable [Env] [Signing]

/-- `verify_authority`. -/
def SignedTransaction.verifyAuthorityBy (t : SignedTransaction) (getPosting getOwner : GetKeyByName)
    (chainId : ChainId) : Except Exc Unit := do
  let pubs ← t.getSignatureKeys chainId
  let used := pubs.foldl (fun (used : UsedKeys) pk => used.assign pk false) []
  let names := signNames t.operations
  let used ← useKeys getPosting "posting signed error" names.1 used
  let used ← useKeys getOwner "owner signed error" names.2 used
  if used.all (·.2) then .ok () else .error (.assertion "check unnecessary sign.")

end NewsChain
