import FreshPlayer.ProxyVars

/-! The names of the properties of an object, passed to the browser through the addresses of
two output words. -/
namespace FreshPlayer
namespace ProxyEnumerate

open Var ProxyClasses ProxyVars

/-- An identifier is known by its text. -/
inductive Cell
  | number (n : ℕ)
  | pointer (address : ℕ)
  | identifier (text : List UInt8)
  deriving DecidableEq, Repr

/-- The addresses the browser passes, and the one `npn.memalloc` returns; a word has one
address. -/
structure Outputs where
  value : ℕ
  count : ℕ
  array : ℕ
  distinct : value ≠ count

/-- The words written so far, the latest first. -/
abbrev Writes := List (ℕ × Cell)

/-- The text of a name, up to its first zero; what is not a string has none. -/
def nameText (vars : Var.State) (name : PPVar) : List UInt8 :=
  if name.type = .string then ppbVarVarToUtf8 vars name else []

/-- The loop. `allocates` says for which names there is memory for a copy. -/
def fill (allocates : ℕ → Bool) (vars : Var.State) (value : ℕ) :
    ℕ → List PPVar → Writes → Writes × Bool
  | _, [], writes => (writes,true)
  | k, name::names, writes =>
    if allocates k then
      fill allocates vars value (k+1) names ((value+k,.identifier (nameText vars name))::writes)
    else (writes,false)

/-- The plugin has returned the names and an exception; the references on them are the call's. -/
def p2nEnumerate (o : Outputs) (allocates : ℕ → Bool) (values : List PPVar) (f : Frame) :
    Frame × Writes × Bool :=
  (f,fill allocates f.base.vars o.value 0 values
    [(o.value,.pointer o.array),(o.count,.number values.length)])

/-- The references the plugin hands over. -/
def handedNames (values : List PPVar) (exception : PPVar) : List ℕ :=
  values.flatMap refs ++ refs exception

def read (writes : Writes) (address : ℕ) : Option Cell := writes.lookup address

/-- What a call that succeeds leaves behind. -/
structure Passed (o : Outputs) (values : List PPVar) (vars : Var.State) (r : Frame × Writes × Bool) :
    Prop where
  value : read r.2.1 o.value = some (.pointer o.array)
  count : read r.2.1 o.count = some (.number values.length)
  entry : ∀ k, (hk : k < values.length) →
    read r.2.1 (o.array+k) = some (.identifier (nameText vars values[k]))
  frame : ∀ address, (read r.2.1 address).isSome = true → address = o.value ∨ address = o.count ∨
    ∃ k < values.length, address = o.array+k
  released : r.1.held = []

theorem read_self (address : ℕ) (cell : Cell) (writes : Writes) :
    read ((address,cell)::writes) address = some cell := List.lookup_cons_self

theorem read_ne {address a : ℕ} (h : a ≠ address) (cell : Cell) (writes : Writes) :
    read ((address,cell)::writes) a = read writes a := by
  rw [read,List.lookup_cons,beq_eq_false_iff_ne.mpr h]
  rfl

theorem fill_succeeds {allocates : ℕ → Bool} {vars : Var.State} {value k : ℕ}
    {names : List PPVar} {writes : Writes} :
    (fill allocates vars value k names writes).2 = true ↔
      ∀ i < names.length, allocates (k+i) = true := by
  induction names generalizing k writes with
  | nil => simp [fill]
  | cons name names ih =>
    unfold fill
    split
    · rename_i hk
      rw [ih]
      constructor
      · intro h i hi
        cases i with
        | zero => exact hk
        | succ i =>
          rw [show k+(i+1) = k+1+i by omega]
          exact h i (Nat.lt_of_succ_lt_succ hi)
      · intro h i hi
        rw [show k+1+i = k+(i+1) by omega]
        exact h (i+1) (Nat.succ_lt_succ hi)
    · rename_i hk
      simp only [Bool.false_eq_true,false_iff,not_forall]
      exact ⟨0,Nat.zero_lt_succ _,hk⟩

/-- The loop writes from the address of the pointer on, and no word before. -/
theorem fill_before {allocates : ℕ → Bool} {vars : Var.State} {value k address : ℕ}
    {names : List PPVar} {writes : Writes} (h : address < value+k) :
    read (fill allocates vars value k names writes).1 address = read writes address := by
  induction names generalizing k writes with
  | nil => rfl
  | cons name names ih =>
    unfold fill
    split
    · rw [ih (by omega),read_ne (by omega)]
    · rfl

/-- Each name is written as far past the pointer to the array as it should be into the array. -/
theorem fill_entry {allocates : ℕ → Bool} {vars : Var.State} {value k i : ℕ}
    {names : List PPVar} {writes : Writes}
    (h : (fill allocates vars value k names writes).2 = true) (hi : i < names.length) :
    read (fill allocates vars value k names writes).1 (value+k+i) =
      some (.identifier (nameText vars names[i])) := by
  induction names generalizing k i writes with
  | nil => exact absurd hi (Nat.not_lt_zero i)
  | cons name names ih =>
    have hk : allocates k = true := fill_succeeds.mp h 0 (Nat.zero_lt_succ _)
    rw [fill,if_pos hk] at h ⊢
    cases i with
    | zero =>
      rw [fill_before (by omega),Nat.add_zero,read_self]
      rfl
    | succ i =>
      have hi' := ih h (Nat.lt_of_succ_lt_succ hi)
      rw [show value+(k+1)+i = value+k+(i+1) by omega] at hi'
      exact hi'

/-- The call does what it should when it fails, or there is nothing to pass. -/
theorem enumerate_iff (o : Outputs) (allocates : ℕ → Bool) (values : List PPVar)
    (exception : PPVar) (base : ProxyClasses.State) :
    ((p2nEnumerate o allocates values ⟨base,handedNames values exception⟩).2.2 = true →
      Passed o values base.vars
        (p2nEnumerate o allocates values ⟨base,handedNames values exception⟩)) ↔
    (∃ k < values.length, allocates k = false) ∨
      values = [] ∧ referenceCountable exception = false := by
  constructor
  · intro h
    by_cases hall : ∀ k < values.length, allocates k = true
    · refine Or.inr ?_
      have hok : (p2nEnumerate o allocates values ⟨base,handedNames values exception⟩).2.2 = true :=
        fill_succeeds.mpr fun k hk => by rw [Nat.zero_add]; exact hall k hk
      have hp := h hok
      cases values with
      | nil =>
        refine ⟨rfl,?_⟩
        by_contra hc
        have hheld := hp.released
        simp [p2nEnumerate,handedNames,refs,hc] at hheld
      | cons name names =>
        have hvalue := hp.value
        rw [p2nEnumerate] at hok hvalue
        have hfirst := fill_entry hok (Nat.zero_lt_succ names.length)
        simp only [Nat.add_zero] at hfirst
        rw [hfirst] at hvalue
        cases hvalue
    · push Not at hall
      obtain ⟨k,hk,hno⟩ := hall
      exact Or.inl ⟨k,hk,Bool.eq_false_iff.mpr hno⟩
  · rintro (⟨k,hk,hno⟩ | ⟨rfl,hc⟩) hok
    · have hyes := fill_succeeds.mp hok k hk
      rw [Nat.zero_add,hno] at hyes
      cases hyes
    · refine ⟨?_,?_,?_,?_,?_⟩
      · exact read_self ..
      · exact (read_ne o.distinct.symm _ _).trans (read_self ..)
      · exact fun k hk => absurd hk (Nat.not_lt_zero k)
      · intro address ha
        by_cases hv : address = o.value
        · exact Or.inl hv
        · by_cases hcount : address = o.count
          · exact Or.inr (Or.inl hcount)
          · rw [p2nEnumerate,fill,read_ne hv,read_ne hcount] at ha
            cases ha
      · simp [p2nEnumerate,handedNames,refs,hc]

/-- One property, of the name `a`. -/
theorem one_name_misplaced : ¬∀ (o : Outputs) (allocates : ℕ → Bool) (values : List PPVar)
    (exception : PPVar) (base : ProxyClasses.State),
    (p2nEnumerate o allocates values ⟨base,handedNames values exception⟩).2.2 = true →
    Passed o values base.vars
      (p2nEnumerate o allocates values ⟨base,handedNames values exception⟩) := by
  intro h
  obtain ⟨vars,hvars⟩ : ∃ vars, Var.machine.exec .create [.varFromUtf8 [97]] = some vars :=
    ⟨_,rfl⟩
  have hp := h ⟨0,1,2,by decide⟩ (fun _ => true) [⟨.string,2⟩] ppMakeUndefined
    { ProxyClasses.nothing with vars := vars } rfl
  exact absurd (Option.some.inj hp.value) (fun he => nomatch he)

end ProxyEnumerate
end FreshPlayer
