import FreshPlayer.ConfigGrammar
import Mathlib.Logic.Function.Basic

/-! Options and their values. `cfg_parse_string` runs the machine, which calls `handle_param`
each time a value may have ended, so several times for one line. -/
namespace FreshPlayer
namespace ConfigParser

open CText Ragel

/-- The variable of an option, by the type. A string can be NULL. -/
inductive Opt (F : Type)
  | int (value : ℤ)
  | float (value : F)
  | string (value : Option Text)
  | unknown (type : ℤ)
  deriving DecidableEq

/-- `reports` is what `error_func` was given, if there is one. -/
structure Cfg (F : Type) where
  entriesHt : Text → Option (Opt F)
  errorFunc : Bool
  reports : List Text

section Options

variable {F : Type} (atof : Text → F)

/-- Of two options of one name the later one counts. -/
def cfgInit (opts : List (Text × Opt F)) (errorFunc : Bool) : Cfg F where
  entriesHt := opts.foldl (fun ht o => Function.update ht o.1 (some o.2)) fun _ => none
  errorFunc := errorFunc
  reports := []

def Cfg.report (cfg : Cfg F) (s : Text) : Cfg F :=
  if cfg.errorFunc then { cfg with reports := cfg.reports ++ [s] } else cfg

def Opt.set (value : Text) : Opt F → Opt F
  | .int _ => .int (atoi value)
  | .float _ => .float (atof value)
  | .string _ => .string (some value)
  | .unknown type => .unknown type

def handleParam (name value : Text) (cfg : Cfg F) : Cfg F :=
  match cfg.entriesHt name with
  | none => cfg.report (bytes "unknown parameter: " ++ name ++ bytes " = " ++ value)
  | some (.unknown type) => cfg.report (bytes "parameter of unknown type " ++
      bytes (toString type) ++ bytes ": " ++ name ++ bytes " = " ++ value)
  | some e => { cfg with entriesHt := Function.update cfg.entriesHt name (some (e.set atof value)) }

structure Param where
  nameStart : ℕ
  nameEnd : ℕ
  valStart : ℕ
  valEnd : ℕ
  deriving DecidableEq, Repr

structure State (F : Type) where
  param : Param
  cfg : Cfg F

/-- `g_strndup` between two places of a text. -/
def slice (text : Text) (b e : ℕ) : Text := (text.drop b).take (e-b)

def act (text : Text) : ParamAction → ℕ → State F → State F
  | .nameBegin, p, v => { v with param := { v.param with nameStart := p } }
  | .nameEnd, p, v => { v with param := { v.param with nameEnd := p } }
  | .valBegin, p, v => { v with param := { v.param with valStart := p } }
  | .valEnd, p, v =>
    ⟨{ v.param with valEnd := p },handleParam atof (slice text v.param.nameStart v.param.nameEnd)
      (slice text v.param.valStart p) v.cfg⟩

/-- `param` starts out with whatever is on the stack. -/
def cfgParseString (s : Text) (cfg : Cfg F) : Cfg F :=
  (Ragel.run order CharClass.mem (act atof s) [mainRule] 0 s ⟨⟨0,0,0,0⟩,cfg⟩).cfg

/-! The table of options alone. -/

/-- What an assignment does to the options. -/
def assign (name value : Text) (ht : Text → Option (Opt F)) : Text → Option (Opt F) :=
  Function.update ht name ((ht name).map (Opt.set atof value))

theorem Opt.set_set (value old : Text) (o : Opt F) :
    (o.set atof old).set atof value = o.set atof value := by cases o <;> rfl

/-- Of two assignments to an option the later one counts. -/
theorem assign_assign (name value old : Text) (ht : Text → Option (Opt F)) :
    assign atof name value (assign atof name old ht) = assign atof name value ht := by
  unfold assign
  rw [Function.update_idem,Function.update_self,Option.map_map]
  congr 2
  funext o
  exact Opt.set_set atof value old o

theorem report_entriesHt (cfg : Cfg F) (s : Text) : (cfg.report s).entriesHt = cfg.entriesHt := by
  unfold Cfg.report
  split <;> rfl

theorem handleParam_entriesHt (name value : Text) (cfg : Cfg F) :
    (handleParam atof name value cfg).entriesHt = assign atof name value cfg.entriesHt := by
  unfold handleParam assign
  split
  · rename_i h
    rw [report_entriesHt,h,Option.map_none,← h,Function.update_eq_self]
  · rename_i type h
    rw [report_entriesHt,h,Option.map_some]
    exact (Function.update_eq_self_iff.mpr h.symm).symm
  · rename_i e h
    rw [h]
    rfl

def run (text : Text) (d : Mode) (p : ℕ) (s : Text) (v : State F) : State F :=
  chart.run kind (act atof text) d p s v

def walk (text : Text) (d : Mode) (p : ℕ) (s : Text) (v : State F) : Option (Mode × State F) :=
  chart.walk kind (act atof text) d p s v

theorem chart_simulates : chart.Simulates order CharClass.memKind fun S d =>
    ∃ q ∈ sampleSets, q.2 = d ∧ Alike S q.1 :=
  Chart.simulates_of_samples sampleSets samples_finals
    fun q hq k => samples_follow q hq k (Kind.mem_all k)

/-- The machine is its chart. -/
theorem cfgParseString_eq (s : Text) (cfg : Cfg F) :
    cfgParseString atof s cfg = (run atof s .fresh 0 s ⟨⟨0,0,0,0⟩,cfg⟩).cfg := by
  have hstart : ∃ q ∈ sampleSets, q.2 = Mode.fresh ∧ Alike [mainRule] q.1 :=
    ⟨([mainRule],.fresh),List.mem_cons_self,rfl,List.Subset.refl _,List.Subset.refl _⟩
  exact congrArg State.cfg (chart_simulates.run_eq (fun _ => rfl) hstart ..)

end Options

end ConfigParser
end FreshPlayer
