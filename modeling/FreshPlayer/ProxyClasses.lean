import FreshPlayer.Var
import Mathlib.Algebra.Order.Ring.Int
import Mathlib.Data.List.Count

/-! The two proxy classes: a var that wraps an object of the browser, and an object for the
browser that wraps a var. Arguments the browser passes in are borrowed, what it returns is
owned by the caller. -/
namespace FreshPlayer
namespace ProxyClasses

open Var

/-- An object of the browser's own, or one of the class `p2n_proxy_class`. -/
inductive NpObject
  | browser (address : ℕ)
  | p2nProxy (address : ℕ) (ppobj : PPVar)
  deriving DecidableEq, Repr

/-- Variants of the other types refer to nothing. -/
inductive Variant
  | object (o : NpObject)
  | string (data : List UInt8)
  | other
  deriving DecidableEq, Repr

/-- A var of the class `n2p_proxy_class`, with the call that made it. -/
structure Wrapper where
  id : ℕ
  call : ℕ
  object : NpObject
  deriving DecidableEq, Repr

/-- Calls are known by their number. Of a call under way there are the vars made of its
arguments, or the variants; of one that has returned, the arguments or the answer. -/
inductive Call
  | invoking (args : List Variant) (ppArgs : List PPVar)
  | invoked (args : List Variant)
  | gotten
  | calling (npArgs : List Variant)
  | answered (answer : Option Variant)

/-- The vars, those that wrap an object of the browser, and the proxies made for it. Ghosts are
the references on objects each call took and gave up. -/
structure State where
  vars : Var.State
  wrappers : List Wrapper
  proxies : List NpObject
  nextObject : ℕ
  calls : List Call
  acquired : List (ℕ × NpObject)
  givenUp : List (ℕ × NpObject)

def nothing : State := ⟨.create,[],[],0,[],[],[]⟩

/-- A result variant is owned by the caller. -/
def receive (c : ℕ) (v : Variant) (s : State) : State :=
  match v with
  | .object o => { s with acquired := (c,o)::s.acquired }
  | _ => s

/-- `NPN_ReleaseVariantValue`, or the browser gets the variant. -/
def giveUp (c : ℕ) (v : Variant) (s : State) : State :=
  match v with
  | .object o => { s with givenUp := (c,o)::s.givenUp }
  | _ => s

/-- `n2p_deallocate` for the vars among the removed ones that wrap an object. -/
def deallocateRemoved : State → List Removal → State
  | s, [] => s
  | s, r::rs =>
    match s.wrappers.find? (·.id == r.entry.var.asId) with
    | some w => deallocateRemoved { s with
        wrappers := s.wrappers.erase w, givenUp := (w.call,w.object)::s.givenUp } rs
    | none => deallocateRemoved s rs

/-- The table after an operation, and what follows from the removals in it. -/
def settle (s : State) (vars : Var.State) : State :=
  deallocateRemoved { s with vars := vars } (vars.removed.drop s.vars.removed.length)

def releaseVar (s : State) (var : PPVar) : State :=
  settle s (ppbVarRelease (disown s.vars var) var)

/-- The conversion does not retain the object it wraps. -/
def npVariantToPpVar (c : ℕ) (v : Variant) (s : State) : Option (State × PPVar) :=
  match v with
  | .object (.p2nProxy _ ppobj) => some ({ s with vars := (ppbVarAddRef2 s.vars ppobj).1 },ppobj)
  | .object (.browser address) => (ppbVarCreateObject s.vars).map fun (vars,var) =>
      ({ s with vars := vars, wrappers := ⟨var.asId,c,.browser address⟩::s.wrappers },var)
  | .string data =>
    (ppbVarVarFromUtf8 s.vars data).map fun (vars,var) => ({ s with vars := vars },var)
  | .other => some (s,ppMakeUndefined)

def npVariantsToPpVars (c : ℕ) : List Variant → State → Option (State × List PPVar)
  | [], s => some (s,[])
  | v::vs, s =>
    (npVariantToPpVar c v s).bind fun (s,var) =>
    (npVariantsToPpVars c vs s).map fun (s,rest) => (s,var::rest)

/-- `created` says that there is an instance to create an object with; an object var has to be
in the table. -/
def ppVarToNpVariant (c : ℕ) (created : Bool) (var : PPVar) (s : State) :
    Option (State × Variant) :=
  match var.type with
  | .string => some (s,.string (ppbVarVarToUtf8 s.vars var))
  | .object =>
    if (s.vars.table.lookup var.asId).isNone then none
    else
      match s.wrappers.find? (·.id == var.asId) with
      | some w => some ({ s with acquired := (c,w.object)::s.acquired },.object w.object)
      | none =>
        if created then
          let o : NpObject := .p2nProxy s.nextObject var
          some ({ s with
            vars := (ppbVarAddRef2 s.vars var).1
            proxies := o::s.proxies
            nextObject := s.nextObject+1
            acquired := (c,o)::s.acquired },.object o)
        else some (s,.other)
  | _ => some (s,.other)

def ppVarsToNpVariants (c : ℕ) (created : Bool) : List PPVar → State →
    Option (State × List Variant)
  | [], s => some (s,[])
  | var::vars, s =>
    (ppVarToNpVariant c created var s).bind fun (s,v) =>
    (ppVarsToNpVariants c created vars s).map fun (s,rest) => (s,v::rest)

def State.begin (s : State) (call : Call) : State := { s with calls := s.calls ++ [call] }

def State.finish (s : State) (c : ℕ) (call : Call) : State :=
  { s with calls := s.calls.set c call }

/-- The first loop of `p2n_invoke_comt`, up to the call of the plugin. -/
def p2nInvoke (args : List Variant) (s : State) : Option State :=
  (npVariantsToPpVars s.calls.length args s).map fun (s,ppArgs) => s.begin (.invoking args ppArgs)

/-- The plugin has returned `res`; there may be nowhere to put the result. -/
def p2nInvokeReturns (c : ℕ) (args : List Variant) (ppArgs : List PPVar) (res : PPVar)
    (npResult created : Bool) (s : State) : Option State :=
  let s := ppArgs.foldl releaseVar s
  let s := if npResult then
      (ppVarToNpVariant c created res s).map fun (s,v) => giveUp c v s
    else some s
  s.map fun s => (releaseVar s res).finish c (.invoked args)

/-- The plugin has returned `res`. -/
def p2nGetProperty (res : PPVar) (created : Bool) (s : State) : Option State :=
  let c := s.calls.length
  (ppVarToNpVariant c created res s).map fun (s,v) => (releaseVar (giveUp c v s) res).begin .gotten

/-- The result of the browser, if the call succeeded. -/
def n2pAnswer (c : ℕ) (answer : Option Variant) (s : State) : Option State :=
  match answer with
  | none => some s
  | some v => (npVariantToPpVar c v (receive c v s)).map Prod.fst

def n2pGetProperty (answer : Option Variant) (s : State) : Option State :=
  (n2pAnswer s.calls.length answer s).map (·.begin (.answered answer))

/-- Construct as well. The first loop, up to the call of the browser. -/
def n2pCall (argv : List PPVar) (created : Bool) (s : State) : Option State :=
  (ppVarsToNpVariants s.calls.length created argv s).map fun (s,npArgs) => s.begin (.calling npArgs)

/-- What is left is done after the arguments have been released. -/
def n2pReturns (c : ℕ) (npArgs : List Variant) (answer : Option Variant) (s : State) :
    Option State :=
  (n2pAnswer c answer (npArgs.foldl (fun s v => giveUp c v s) s)).map
    (·.finish c (.answered answer))

inductive Action
  | p2nInvoke (args : List Variant)
  | p2nInvokeReturns (c : ℕ) (res : PPVar) (npResult created : Bool)
  | p2nGetProperty (res : PPVar) (created : Bool)
  | n2pGetProperty (answer : Option Variant)
  | n2pCall (argv : List PPVar) (created : Bool)
  | n2pReturns (c : ℕ) (answer : Option Variant)
  /-- `p2n_deallocate` for the last reference on a proxy. -/
  | p2nDeallocate (o : NpObject)
  /-- Whatever the plugin does with vars. -/
  | plugin (op : Op)
  deriving DecidableEq, Repr

def step (s : State) : Action → Option State
  | .p2nInvoke args => p2nInvoke args s
  | .p2nInvokeReturns c res npResult created => match s.calls[c]? with
    | some (.invoking args ppArgs) => p2nInvokeReturns c args ppArgs res npResult created s
    | _ => none
  | .p2nGetProperty res created => p2nGetProperty res created s
  | .n2pGetProperty answer => n2pGetProperty answer s
  | .n2pCall argv created => n2pCall argv created s
  | .n2pReturns c answer => match s.calls[c]? with
    | some (.calling npArgs) => n2pReturns c npArgs answer s
    | _ => none
  | .p2nDeallocate o =>
    if o ∈ s.proxies then
      match o with
      | .p2nProxy _ ppobj => some (releaseVar { s with proxies := s.proxies.erase o } ppobj)
      | .browser _ => none
    else none
  | .plugin op => (Var.step s.vars op).map (settle s)

def machine : Machine State Action := ⟨nothing,step⟩

end ProxyClasses
end FreshPlayer
