import FreshPlayer.ProxyClasses
import FreshPlayer.VarAccounting

/-! The vars a call through a proxy makes: its name, its arguments, the exception and the
result. The plugin runs in the middle of a call, and may call back into the browser. -/
namespace FreshPlayer
namespace ProxyVars

open Var ProxyClasses

/-- The reference that goes with a var. -/
def refs (var : PPVar) : List ℕ := if referenceCountable var then [var.asId] else []

/-- A proxy keeps a reference on its var. -/
def objectRefs : NpObject → List ℕ
  | .browser _ => []
  | .p2nProxy _ ppobj => refs ppobj

inductive Kind
  | hasMethod | hasProperty | getProperty | invoke
  deriving DecidableEq, Repr

/-- There is no name if the identifier was not a string. `held` is a ghost: the references the
call has on vars. -/
structure Call where
  kind : Kind
  name : Option PPVar
  args : List PPVar
  returned : Bool
  held : List ℕ
  deriving DecidableEq, Repr

/-- `kept` is a ghost too, the references of the plugin. -/
structure State where
  base : ProxyClasses.State
  kept : List ℕ
  calls : List Call

def nothing : State := ⟨ProxyClasses.nothing,[],[]⟩

/-- What a call works on. -/
structure Frame where
  base : ProxyClasses.State
  held : List ℕ

def Frame.release (f : Frame) (var : PPVar) : Frame :=
  ⟨releaseVar f.base var,f.held.diff (refs var)⟩

/-- The variant for the result goes to the browser. -/
def Frame.convert (c : ℕ) (created : Bool) (res : PPVar) (f : Frame) : Option Frame :=
  (ppVarToNpVariant c created res f.base).map fun (base,v) => ⟨giveUp c v base,f.held⟩

def p2nHasMethodComt (methodName exception : PPVar) (f : Frame) : Frame :=
  (f.release methodName).release exception

def p2nHasPropertyComt (propertyName exception : PPVar) (f : Frame) : Frame :=
  (f.release propertyName).release exception

def p2nGetPropertyComt (c : ℕ) (created : Bool) (res exception : PPVar) (f : Frame) :
    Option Frame :=
  (f.convert c created res).map fun f => (f.release res).release exception

def p2nInvokeComt (c : ℕ) (npResult created : Bool) (methodName : PPVar) (ppArgs : List PPVar)
    (res exception : PPVar) (f : Frame) : Option Frame :=
  let f := ppArgs.foldl Frame.release f
  let f := if npResult then f.convert c created res else some f
  f.map fun f => ((f.release res).release methodName).release exception

/-- An object of the class `p2n_proxy_class` has its var in the table. -/
def Converts (base : ProxyClasses.State) : Variant → Prop
  | .object (.p2nProxy _ ppobj) =>
    referenceCountable ppobj = true → (base.vars.table.lookup ppobj.asId).isSome = true
  | _ => True

instance (base : ProxyClasses.State) (v : Variant) : Decidable (Converts base v) := by
  unfold Converts
  split <;> infer_instance

/-- Up to the call of the plugin. Only `p2n_invoke` has arguments. -/
def p2nCall (kind : Kind) (name : Option (List UInt8)) (args : List Variant) (s : State) :
    Option State :=
  match name with
  | none => some { s with calls := s.calls ++ [⟨kind,none,[],true,[]⟩] }
  | some name =>
    if ∀ v ∈ args, Converts s.base v then
      (ppbVarVarFromUtf8 s.base.vars name).bind fun (vars,name) =>
      let base := { s.base with vars := vars }
      let converted := match kind with
        | .invoke => npVariantsToPpVars s.calls.length args base
        | _ => some (base,[])
      converted.map fun (base,ppArgs) =>
        ⟨base,s.kept,s.calls ++ [⟨kind,some name,ppArgs,false,refs name ++ ppArgs.flatMap refs⟩]⟩
    else none

/-- What the plugin hands over: there is a result unless it was asked a question. -/
def handed (kind : Kind) (res exception : PPVar) : List ℕ :=
  match kind with
  | .hasMethod | .hasProperty => refs exception
  | .getProperty | .invoke => refs res ++ refs exception

def comt (c : ℕ) (k : Call) (name res exception : PPVar) (npResult created : Bool) (f : Frame) :
    Option Frame :=
  match k.kind with
  | .hasMethod => some (p2nHasMethodComt name exception f)
  | .hasProperty => some (p2nHasPropertyComt name exception f)
  | .getProperty => p2nGetPropertyComt c created res exception f
  | .invoke => p2nInvokeComt c npResult created name k.args res exception f

/-- The plugin gives what it has references on. -/
def p2nReturns (c : ℕ) (res exception : PPVar) (npResult created : Bool) (s : State) :
    Option State :=
  match s.calls[c]? with
  | some k => match k.name, k.returned with
    | some name, false =>
      let gift := handed k.kind res exception
      if List.Subperm gift s.kept then
        (comt c k name res exception npResult created ⟨s.base,gift ++ k.held⟩).map fun f =>
          ⟨f.base,s.kept.diff gift,s.calls.set c { k with returned := true, held := f.held }⟩
      else none
    | _, _ => none
  | none => none

/-- References that callers own now and did not own before. -/
def gained (before after : Var.State) : List ℕ := after.owned.diff before.owned

/-- The plugin releases references of its own only. -/
def pluginStep (op : Op) (s : State) : Option State :=
  (Var.step s.base.vars op).bind fun vars =>
  let base := settle s.base vars
  match op with
  | .release var =>
    if List.Subperm (refs var) s.kept then
      some { s with base := base, kept := s.kept.diff (refs var) }
    else none
  | _ => some { s with base := base, kept := gained s.base.vars vars ++ s.kept }

inductive Action
  | p2nCall (kind : Kind) (name : Option (List UInt8)) (args : List Variant)
  | p2nReturns (c : ℕ) (res exception : PPVar) (npResult created : Bool)
  /-- A result of the browser becomes the plugin's. -/
  | n2pAnswer (answer : Variant)
  /-- An argument of the plugin is converted for the browser. -/
  | n2pArgument (var : PPVar) (created : Bool)
  | p2nDeallocate (o : NpObject)
  /-- Whatever the plugin does with vars. -/
  | plugin (op : Op)
  deriving DecidableEq, Repr

def step (s : State) : Action → Option State
  | .p2nCall kind name args => p2nCall kind name args s
  | .p2nReturns c res exception npResult created => p2nReturns c res exception npResult created s
  | .n2pAnswer answer =>
    if Converts s.base answer then
      (n2pAnswer s.calls.length (some answer) s.base).map fun base =>
        { s with base := base, kept := gained s.base.vars base.vars ++ s.kept }
    else none
  | .n2pArgument var created =>
    (ppVarToNpVariant s.calls.length created var s.base).map fun (base,_) => { s with base := base }
  | .p2nDeallocate o =>
    if o ∈ s.base.proxies then
      match o with
      | .p2nProxy _ ppobj =>
        some { s with base := releaseVar { s.base with proxies := s.base.proxies.erase o } ppobj }
      | .browser _ => none
    else none
  | .plugin op => pluginStep op s

def machine : Machine State Action := ⟨nothing,step⟩

/-- References of the calls other than one. -/
def State.others (s : State) (c : ℕ) : List ℕ := (s.calls.eraseIdx c).flatMap Call.held

/-- References of the plugin, the proxies and the calls other than one. -/
def State.known (s : State) (c : ℕ) : List ℕ :=
  s.kept ++ s.base.proxies.flatMap objectRefs ++ s.others c

/-- Nothing is left of a call: what callers own is the plugin's, or a proxy's, or belongs to
another call. -/
def Balanced (s : State) (c : ℕ) : Prop := List.Perm s.base.vars.owned (s.known c)

/-- The table holds what these, and the slots of containers, have references on: every entry
counts just them, and is there for one of them at least. -/
structure TableBalanced (s : State) (c : ℕ) : Prop where
  counts : ∀ id e, s.base.vars.table.lookup id = some e →
    e.refCount = (s.known c).count id + s.base.vars.slots.countP (holds id) ∧
      0 < e.refCount ∧ e.refCount < 2^31
  entries : ∀ id ∈ s.known c, (s.base.vars.table.lookup id).isSome = true

end ProxyVars
end FreshPlayer
