import NewsChain.Lib.ByteSource
import NewsChain.Lib.Requirements

/-!
# The application and its plugins

`news::app`: plugins are registered, initialized, started and shut down. A plugin names the plugins that
it requires; registering, initializing and starting one does so with those first. What a plugin does in
its own functions is a parameter.
-/

namespace NewsChain

/-- The exceptions, as far as the application tells them apart. -/
inductive AppExc
  /-- `boost::program_options::error` -/
  | programOptions (what : String)
  | runtimeError (what : String)
  /-- An exception that is not a `std::exception`. -/
  | fc (what : String)
deriving DecidableEq

/-- `abstract_plugin::state`. -/
inductive PluginState
  | registered
  | initialized
  | started
  | stopped
deriving DecidableEq

/-- A function of a plugin that the application calls. -/
inductive PluginCall (ι : Type)
  | pluginInitialize (i : ι)
  | pluginStartup (i : ι)
  | pluginShutdown (i : ι)
deriving DecidableEq

/-- The plugins' own functions, on a state of theirs. -/
structure PluginHooks (ι ω : Type) where
  pluginInitialize : ι → EStateM AppExc ω Unit
  pluginStartup : ι → EStateM AppExc ω Unit
  pluginShutdown : ι → EStateM AppExc ω Unit

/-- An `application` with its plugins. `calls` is not in the source: the functions that were called. -/
structure Application (ι ω : Type) where
  /-- The names in `_plugins`. -/
  plugins : List ι := []
  initializedPlugins : List ι := []
  runningPlugins : List ι := []
  state : ι → PluginState := fun _ => .registered
  world : ω
  calls : List (PluginCall ι) := []

/-- What the two ways up have to tell them apart. -/
inductive Rise
  | initializing
  | starting

namespace Rise

/-- The state that a plugin has to be in. -/
def before : Rise → PluginState
  | .initializing => .registered
  | .starting => .initialized

/-- The state that it is brought to. -/
def after : Rise → PluginState
  | .initializing => .initialized
  | .starting => .started

def refusal : Rise → String
  | .initializing => "Initial state was not registered, so final state cannot be initialized."
  | .starting => "Initial state was not initialized, so final state cannot be started."

variable {ι ω : Type}

def call : Rise → ι → PluginCall ι
  | .initializing => .pluginInitialize
  | .starting => .pluginStartup

def hook (h : PluginHooks ι ω) : Rise → ι → EStateM AppExc ω Unit
  | .initializing => h.pluginInitialize
  | .starting => h.pluginStartup

/-- The plugins that were brought up. -/
def list : Rise → Application ι ω → List ι
  | .initializing, s => s.initializedPlugins
  | .starting, s => s.runningPlugins

/-- `plugin_init` and `plugin_started`. -/
def push (i : ι) (s : Application ι ω) : Rise → Application ι ω
  | .initializing => { s with initializedPlugins := s.initializedPlugins ++ [i] }
  | .starting => { s with runningPlugins := s.runningPlugins ++ [i] }

end Rise

namespace Application

variable {ι ω : Type} [DecidableEq ι] (g : Requirements ι) (hooks : PluginHooks ι ω)

abbrev AppM (ι ω : Type) := EStateM AppExc (Application ι ω)

def setState (i : ι) (next : PluginState) (s : Application ι ω) : Application ι ω :=
  { s with state := fun j => if j = i then next else s.state j }

/-- A function of a plugin is called. -/
def callHook (call : PluginCall ι) (hook : EStateM AppExc ω Unit) : AppM ι ω Unit := do
  modify fun s => { s with calls := s.calls ++ [call] }
  onPart (·.world) (fun w s => { s with world := w }) hook

/-- `register_plugin`, with `register_dependencies`. -/
def registerFrom : Nat → ι → AppM ι ω Unit
  | 0, _ => throw (.runtimeError "register_plugin does not end")
  | depth + 1, i => do
    if i ∈ (← get).plugins then pure ()
    else do
      modify fun s => { s with plugins := i :: s.plugins }
      (g.requires i).forM (registerFrom depth)

def registerPlugin (i : ι) : AppM ι ω Unit := registerFrom g (g.rank i + 1) i

/-- `initialize` and `startup` of a plugin. Both set the state, visit what the plugin requires, call the
plugin's own function and enter the plugin in a list; where the state is another one, they throw. -/
def riseFrom (r : Rise) : Nat → ι → AppM ι ω Unit
  | 0, _ => throw (.runtimeError "plugin_for_each_dependency does not end")
  | depth + 1, i => do
    if (← get).state i = r.before then do
      modify (setState i r.after)
      (g.requires i).forM fun j => do
        registerPlugin g j
        riseFrom r depth j
      callHook (r.call i) (r.hook hooks i)
      modify fun s => r.push i s
    else pure ()
    if (← get).state i = r.after then pure () else throw (.runtimeError r.refusal)

/-- `initialize` of a plugin. -/
def initializePlugin (i : ι) : AppM ι ω Unit := riseFrom g hooks .initializing (g.rank i + 1) i

/-- `startup` of a plugin. -/
def startupPlugin (i : ι) : AppM ι ω Unit := riseFrom g hooks .starting (g.rank i + 1) i

/-- `shutdown` of a plugin. -/
def shutdownPlugin (i : ι) : AppM ι ω Unit := do
  if (← get).state i = .started then do
    modify (setState i .stopped)
    callHook (.pluginShutdown i) (hooks.pluginShutdown i)
  else pure ()

/-- `get_plugin` by name, and `initialize`. -/
def initializeNamed (i : ι) : AppM ι ω Unit := do
  if i ∈ (← get).plugins then initializePlugin g hooks i
  else throw (.runtimeError "unable to get plugin")

/-- A round of the loop over `autostart_plugins`. -/
def autostart (i : ι) : AppM ι ω Unit := do
  if (← get).state i = .registered then initializePlugin g hooks i else pure ()

/-- The handler after the loop over `autostart_plugins`: what is a `std::exception` is only logged. -/
def logStdException : AppExc → AppM ι ω Unit
  | .fc what => throw (.fc what)
  | _ => pure ()

/-- `initizlize` and `initialize_impl`: `configured` are the plugins named in the options, where these are
read and ask for no help. -/
def initializeImpl (configured : Option (List ι)) (autostarted : List ι) : AppM ι ω Bool := do
  -- `find_plugin` gives a null pointer for a plugin that is not registered.
  let known := (← get).plugins
  let autostartPlugins := autostarted.filter (· ∈ known)
  let go ← tryCatch
    (match configured with
      | none => pure false
      | some names => do
        names.forM (initializeNamed g hooks)
        pure true)
    fun
      | .programOptions _ => pure false
      | e => throw e
  if go then do
    tryCatch (autostartPlugins.forM (autostart g hooks)) logStdException
    pure true
  else pure false

/-- `start_up`. -/
def startUp : AppM ι ω Unit := do
  (← get).initializedPlugins.forM (startupPlugin g hooks)

/-- `shutdown`. -/
def shutdown : AppM ι ω Unit := do
  (← get).runningPlugins.reverse.forM (shutdownPlugin hooks)
  modify fun s => { s with plugins := [], initializedPlugins := [], runningPlugins := [] }

/-- `main`, up to its exceptions: `regist_plugin`, `initizlize`, `start_up` and `exec`. -/
def main (registered : List ι) (configured : Option (List ι)) (autostarted : List ι) :
    AppM ι ω Unit := do
  registered.forM (registerPlugin g)
  if ← initializeImpl g hooks configured autostarted then do
    startUp g hooks
    shutdown hooks
  else pure ()

end Application

/-! ## The node -/

/-- The plugins of the node. -/
inductive NodePlugin
  | chainPlugin
  | webserverPlugin
  | blockApiPlugin
  | chainApiPlugin
  | producerPlugin
  | databaseApiPlugin
  | p2pPlugin
  | accountHistoryPlugin
  | networkBroadcastPlugin
  | accountHistoryApiPlugin
  | jsonRpcPlugin
deriving DecidableEq

namespace NodePlugin

/-- The `NEWSAPP_PLUGIN_REQUIRES` of the plugins. -/
def requires : NodePlugin → List NodePlugin
  | webserverPlugin => [jsonRpcPlugin]
  | blockApiPlugin => [jsonRpcPlugin, chainPlugin]
  | databaseApiPlugin => [jsonRpcPlugin, chainPlugin]
  | p2pPlugin => [chainPlugin]
  | networkBroadcastPlugin => [jsonRpcPlugin, chainPlugin, p2pPlugin]
  | accountHistoryApiPlugin => [jsonRpcPlugin, chainPlugin, accountHistoryPlugin]
  | _ => []

def rank : NodePlugin → Nat
  | networkBroadcastPlugin => 2
  | webserverPlugin | blockApiPlugin | databaseApiPlugin | p2pPlugin | accountHistoryApiPlugin => 1
  | _ => 0

def requirements : Requirements NodePlugin where
  requires := requires
  rank := rank
  rank_lt i := by cases i <;> decide

/-- `regist_plugin` -/
def registered : List NodePlugin :=
  [chainPlugin, webserverPlugin, blockApiPlugin, chainApiPlugin, producerPlugin, databaseApiPlugin,
    p2pPlugin, accountHistoryPlugin, networkBroadcastPlugin, accountHistoryApiPlugin]

/-- The plugins that `main` has `initizlize` start by themselves. -/
def autostarted : List NodePlugin :=
  [chainApiPlugin, producerPlugin, blockApiPlugin, databaseApiPlugin, accountHistoryPlugin,
    webserverPlugin, networkBroadcastPlugin]

end NodePlugin

end NewsChain
