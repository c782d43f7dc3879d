import FreshPlayer.ConfigLines
import Mathlib.Data.List.Induction

/-! What a configuration text leaves in the options: the parser reads the lines up to the first
one that stops it, and an option holds what it has taken from the last assignment there. -/
namespace FreshPlayer
namespace ConfigParser

open CText Ragel

inductive Break
  | lf | cr
  deriving DecidableEq, Repr

def Break.char : Break → UInt8
  | .lf => 10
  | .cr => 13

/-- Lines with the breaks behind them, and the last line. -/
structure Document where
  ended : List (Line × Break)
  last : Line

def documentText : List (Line × Break) → Line → Text
  | [], last => last.text
  | q::qs, last => q.1.text ++ (q.2.char::documentText qs last)

def Document.text (D : Document) : Text := documentText D.ended D.last

def Document.lines (D : Document) : List Line := D.ended.map Prod.fst ++ [D.last]

/-- The lines up to the one where the parser stops. -/
def reached : List Line → List Line
  | [] => []
  | l::ls => if l.Stops then [l] else l::reached ls

def Line.settingFor (n : Text) : Line → Option Setting
  | .setting a => if a.name.text = n then some a else none
  | _ => none

/-- The last assignment to an option. -/
def lastFor (n : Text) (ls : List Line) : Option Setting := ls.reverse.findSome? (Line.settingFor n)

/-- Nothing stands between the value and the end of the line, or the value is in quotes. -/
def Setting.Clean (a : Setting) : Prop :=
  match a.value with
  | .quoted _ _ _ => True
  | .plain _ _ => a.trail.text = [] ∧ a.semi = none

theorem semiText_eq_nil {semi : Option Blanks} : semiText semi = [] ↔ semi = none := by
  cases semi <;> simp [semiText]

theorem Setting.kept_eq_said (a : Setting) : a.kept = a.value.said ↔ a.Clean := by
  obtain ⟨lead,n,before,after,val,trail,semi⟩ := a
  cases val with
  | quoted q inner h => exact iff_of_true rfl trivial
  | plain s h =>
    refine List.append_right_eq_self.trans ?_
    rw [List.append_eq_nil_iff,semiText_eq_nil]
    exact Iff.rfl

theorem kind_of_isSpace {c : UInt8} (h : isSpace c = true) :
    kind c = .newline ∨ kind c = .blank := by
  unfold kind
  split_ifs
  · exact Or.inl rfl
  · exact Or.inr rfl

theorem kind_of_isDigit {c : UInt8} (h : isDigit c = true) : kind c = .digit := by
  have hall : ∀ n < 58, 48 ≤ n → kind (UInt8.ofNat n) = .digit := by decide
  rw [isDigit_iff] at h
  have hc := hall c.toNat (by omega) h.1
  rwa [UInt8.ofNat_toNat] at hc

/-- Behind a value without quotes there is no digit. -/
theorem not_isDigit_tail (trail : Blanks) (semi : Option Blanks) :
    ∀ c ∈ trail.text ++ semiText semi, isDigit c = false := by
  intro c hc
  rw [Bool.eq_false_iff]
  intro hd
  have hk := kind_of_isDigit hd
  rcases List.mem_append.mp hc with hc | hc
  · rw [trail.blank c hc] at hk
    cases hk
  · cases semi with
    | none => cases hc
    | some b =>
      rcases List.mem_cons.mp hc with rfl | hc
      · cases hk
      · rw [b.blank c hc] at hk
        cases hk

/-- A number ends before what is behind the value. -/
theorem Setting.atoi_kept (a : Setting) : atoi a.kept = atoi a.value.said := by
  obtain ⟨lead,n,before,after,val,trail,semi⟩ := a
  cases val with
  | quoted q inner h => rfl
  | plain s h =>
    obtain ⟨c,rest,rfl,hval,hblank,-⟩ := isPlain_cons h
    have hc : isSpace c = false := by
      rw [Bool.eq_false_iff]
      intro hs
      exact (kind_of_isSpace hs).elim hval.1 hblank
    exact atoi_append hc fun x hx => not_isDigit_tail trail semi x (List.mem_of_mem_head? hx)

section Values

variable {F : Type} {atof : Text → F} {T : Text} {p : ℕ} {v : State F} {d e : Mode}

def Opt.after (atof : Text → F) (o : Opt F) : Option Text → Opt F
  | none => o
  | some x => o.set atof x

theorem Opt.after_after (o : Opt F) (x y : Option Text) :
    (o.after atof x).after atof y = o.after atof (y.or x) := by
  cases y with
  | none => rfl
  | some y => cases x with
    | none => rfl
    | some x => exact Opt.set_set atof y x o

def effects (atof : Text → F) (ls : List Line) (ht : Text → Option (Opt F)) :
    Text → Option (Opt F) := ls.foldl (fun ht l => effect atof l.kept ht) ht

theorem effect_apply (l : Line) (ht : Text → Option (Opt F)) (n : Text) :
    effect atof l.kept ht n =
      (ht n).map fun o => o.after atof ((l.settingFor n).map Setting.kept) := by
  have hid : ht n = (ht n).map fun o => o.after atof none := Option.map_id'.symm
  cases l with
  | blank pad => exact hid
  | comment pad body h => exact hid
  | setting a =>
    by_cases h : a.name.text = n
    · subst h
      rw [Line.settingFor,if_pos rfl]
      exact Function.update_self ..
    · rw [Line.settingFor,if_neg h]
      exact (Function.update_of_ne (Ne.symm h) ..).trans hid

/-- Of all the assignments to an option the last one counts. -/
theorem effects_apply (ls : List Line) (ht : Text → Option (Opt F)) (n : Text) :
    effects atof ls ht n =
      (ht n).map fun o => o.after atof ((lastFor n ls).map Setting.kept) := by
  induction ls using List.reverseRecOn with
  | nil => exact Option.map_id'.symm
  | append_singleton ls l ih =>
    have hlast : lastFor n (ls ++ [l]) = (l.settingFor n).or (lastFor n ls) := by
      rw [lastFor,List.reverse_append,List.findSome?_append]
      simp [lastFor]
    rw [effects,List.foldl_append,List.foldl_cons,List.foldl_nil,effect_apply,hlast]
    rw [← effects,ih,Option.map_map,Option.map_or]
    exact congrArg (Option.map · (ht n)) (funext fun o => o.after_after _ _)

theorem Break.newline (b : Break) : kind b.char = .newline := by cases b <;> rfl

theorem run_break (b : Break) {e' : Mode} (h : e.next .newline = some e') (p : ℕ) (rest : Text)
    (w : State F) : run atof T e p (b.char::rest) w =
      run atof T e' (p+1) rest (fire (act atof T) (e.fired .newline) p w) := by
  have hwalk : walk atof T e p [b.char] w =
      some (e',fire (act atof T) (e.fired .newline) p w) := by
    rw [walk_one (by rw [b.newline]; exact h),b.newline]
  exact run_after hwalk rest

/-- Behind a line and its break. -/
theorem Reads.run_break {Q : Mode → State F → Prop} {xs : Text} {ht : Text → Option (Opt F)}
    (h : Reads atof T Q d p xs v ht) (b : Break) (rest : Text) :
    ∃ e w, Q e w ∧ w.cfg.entriesHt = ht ∧
      run atof T d p (xs ++ b.char::rest) v = run atof T e (p+xs.length+1) rest w := by
  obtain ⟨e,w,hw,hends⟩ := h
  obtain ⟨e',hnext,hq,hht⟩ := hends.newline
  exact ⟨e',_,hq,hht,(run_after hw _).trans (ConfigParser.run_break b hnext _ _ _)⟩

/-- The parser goes over the lines until one stops it. -/
theorem run_document (hd : Starts d) (qs : List (Line × Break)) (last : Line)
    (hs : Sits T p (documentText qs last)) :
    (run atof T d p (documentText qs last) v).cfg.entriesHt =
      effects atof (reached (qs.map Prod.fst ++ [last])) v.cfg.entriesHt := by
  induction qs generalizing d p v with
  | nil =>
    rw [List.map_nil,List.nil_append,reached,reached,ite_self]
    by_cases hstop : last.Stops
    · have hstopped : StopsIn atof T d p last.text v _ := line_stops hd last hs hstop
      have hrun := hstopped []
      rwa [List.append_nil] at hrun
    · exact (line_ends hd last hs hstop).run_eof
  | cons q qs ih =>
    obtain ⟨l,b⟩ := q
    rw [List.map_cons,List.cons_append,reached]
    by_cases hstop : l.Stops
    · rw [if_pos hstop]
      exact line_stops hd l hs.left hstop _
    · obtain ⟨e,w,hstarts,hht,hrun⟩ := (line_ends (v := v) hd l hs.left hstop).run_break b
        (documentText qs last)
      rw [if_neg hstop]
      refine (congrArg (fun u : State F => u.cfg.entriesHt) hrun).trans ?_
      refine (ih hstarts hs.right.tail).trans ?_
      rw [hht]
      rfl

/-- What an option holds after the text. -/
theorem cfgParseString_entriesHt (atof : Text → F) (D : Document) (cfg : Cfg F) (n : Text) :
    (cfgParseString atof D.text cfg).entriesHt n = (cfg.entriesHt n).map fun o =>
      o.after atof ((lastFor n (reached D.lines)).map Setting.kept) := by
  rw [cfgParseString_eq,← effects_apply]
  exact congrFun (run_document (Or.inl rfl) D.ended D.last (sits_self _)) n

/-- After the text options hold the values of their last assignments. -/
structure Valued (atof : Text → F) (D : Document) (cfg : Cfg F) : Prop where
  strings : ∀ n s a, cfg.entriesHt n = some (.string s) → lastFor n D.lines = some a →
    (cfgParseString atof D.text cfg).entriesHt n = some (.string (some a.value.said))
  ints : ∀ n i a, cfg.entriesHt n = some (.int i) → lastFor n D.lines = some a →
    (cfgParseString atof D.text cfg).entriesHt n = some (.int (atoi a.value.said))
  others : ∀ n, lastFor n D.lines = none →
    (cfgParseString atof D.text cfg).entriesHt n = cfg.entriesHt n

/-- What counts of the lines that are reached is the value of the last assignment of all. To a
string option the rest of the line counts as well. -/
structure Retained (D : Document) (cfg : Cfg F) : Prop where
  strings : ∀ n s a, cfg.entriesHt n = some (.string s) → lastFor n D.lines = some a →
    (lastFor n (reached D.lines)).elim s (fun b => some b.kept) = some a.value.said
  ints : ∀ n i a, cfg.entriesHt n = some (.int i) → lastFor n D.lines = some a →
    (lastFor n (reached D.lines)).elim i (fun b => atoi b.value.said) = atoi a.value.said

theorem reached_initial (ls : List Line) : reached ls <+: ls := by
  induction ls with
  | nil => exact List.prefix_rfl
  | cons l ls ih =>
    rw [reached]
    split
    · exact ⟨ls,rfl⟩
    · exact (List.prefix_cons_inj l).mpr ih

theorem lastFor_reached {n : Text} {ls : List Line} (h : lastFor n ls = none) :
    lastFor n (reached ls) = none := by
  rw [lastFor,List.findSome?_eq_none_iff] at h ⊢
  intro l hl
  exact h l (List.mem_reverse.mpr ((reached_initial ls).subset (List.mem_reverse.mp hl)))

theorem Opt.after_string (s : Option Text) (x : Option Text) :
    (Opt.string s : Opt F).after atof x = .string (x.elim s some) := by cases x <;> rfl

theorem Opt.after_int (i : ℤ) (x : Option Text) :
    (Opt.int i : Opt F).after atof x = .int (x.elim i atoi) := by cases x <;> rfl

theorem config_values_iff (atof : Text → F) (D : Document) (cfg : Cfg F) :
    Valued atof D cfg ↔ Retained D cfg := by
  have hstring : ∀ n s a, cfg.entriesHt n = some (.string s) →
      ((cfgParseString atof D.text cfg).entriesHt n = some (.string (some a)) ↔
        (lastFor n (reached D.lines)).elim s (fun b => some b.kept) = some a) := by
    intro n s a ho
    rw [cfgParseString_entriesHt,ho,Option.map_some,Opt.after_string,Option.elim_map]
    rw [Option.some_inj,Opt.string.injEq]
    exact Iff.rfl
  have hint : ∀ n i a, cfg.entriesHt n = some (.int i) →
      ((cfgParseString atof D.text cfg).entriesHt n = some (.int a) ↔
        (lastFor n (reached D.lines)).elim i (fun b => atoi b.value.said) = a) := by
    intro n i a ho
    rw [cfgParseString_entriesHt,ho,Option.map_some,Opt.after_int,Option.elim_map]
    rw [Option.some_inj,Opt.int.injEq,← funext Setting.atoi_kept]
    exact Iff.rfl
  constructor
  · intro h
    exact ⟨fun n s a ho ha => (hstring n s _ ho).mp (h.strings n s a ho ha),
      fun n i a ho ha => (hint n i _ ho).mp (h.ints n i a ho ha)⟩
  · intro h
    refine ⟨fun n s a ho ha => (hstring n s _ ho).mpr (h.strings n s a ho ha),
      fun n i a ho ha => (hint n i _ ho).mpr (h.ints n i a ho ha),fun n ha => ?_⟩
    rw [cfgParseString_entriesHt,lastFor_reached ha]
    exact Option.map_id'

theorem reached_eq {ls : List Line} (h : ∀ l ∈ ls, ¬l.Stops) : reached ls = ls := by
  induction ls with
  | nil => rfl
  | cons l ls ih =>
    rw [reached,if_neg (h l List.mem_cons_self)]
    rw [ih fun x hx => h x (List.mem_cons_of_mem l hx)]

/-- Where no line stops the parser, only what follows a value without quotes matters. -/
theorem retained_iff_clean {D : Document} (h : ∀ l ∈ D.lines, ¬l.Stops) (cfg : Cfg F) :
    Retained D cfg ↔ ∀ n s a, cfg.entriesHt n = some (.string s) →
      lastFor n D.lines = some a → a.Clean := by
  have hclean : ∀ n s a, lastFor n D.lines = some a →
      ((lastFor n (reached D.lines)).elim s (fun b => some b.kept) = some a.value.said ↔
        a.Clean) := by
    intro n s a ha
    rw [reached_eq h,ha,← a.kept_eq_said]
    exact Option.some_inj
  constructor
  · intro hr n s a ho ha
    exact (hclean n s a ha).mp (hr.strings n s a ho ha)
  · intro hc
    refine ⟨fun n s a ho ha => (hclean n s a ha).mpr (hc n s a ho ha),fun n i a _ ha => ?_⟩
    rw [reached_eq h,ha]
    rfl

end Values

theorem isPlain_letter {c : UInt8} (h : kind c = .alpha) : IsPlain [c] where
  ne := List.cons_ne_nil c []
  chars := fun x hx => by rw [List.mem_singleton.mp hx,h]; decide
  head := fun x hx => by rw [← Option.mem_some.mp hx,h]; decide
  last := fun x hx => by rw [← show c = x from Option.mem_some.mp hx,h]; decide

/-- `v = x ;` -/
def spacedSetting : Setting where
  lead := noBlanks
  name := letterName 'v'.toUInt8 (by decide)
  before := oneBlank
  after := oneBlank
  value := .plain ['x'.toUInt8] (isPlain_letter (by decide))
  trail := oneBlank
  semi := some noBlanks

theorem spaced_value_kept : ¬Valued (fun _ => ()) ⟨[],.setting spacedSetting⟩
    (cfgInit [(bytes "v",.string none)] false) := by
  intro h
  have hkept := h.strings (bytes "v") none spacedSetting rfl rfl
  rw [cfgParseString_entriesHt] at hkept
  exact absurd hkept (by decide)

end ConfigParser
end FreshPlayer
