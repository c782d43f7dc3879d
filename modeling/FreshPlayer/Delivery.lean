import FreshPlayer.Transition
import Mathlib.Data.List.Nodup

/-! In-order delivery of a growing sequence. Requests wait in a queue; serving the
first gives it the next elements, up to the number it asked for. -/
namespace FreshPlayer
namespace Delivery

variable {α : Type*}

/-- A request with its number in the order of asking. -/
structure Request where
  number : ℕ
  size : ℕ
  deriving DecidableEq, Repr

/-- `served` lists what each request served so far was given. -/
structure State (α : Type*) where
  data : List α
  pos : ℕ
  waiting : List Request
  served : List (ℕ × List α)
  asked : ℕ

inductive Event (α : Type*)
  | feed (xs : List α) | ask (size : ℕ) | serve

def next (s : State α) (r : Request) : List α := (s.data.drop s.pos).take r.size

def step (s : State α) : Event α → Option (State α)
  | .feed xs => some { s with data := s.data ++ xs }
  | .ask size => some { s with waiting := s.waiting ++ [⟨s.asked,size⟩], asked := s.asked+1 }
  | .serve => match s.waiting with
    | [] => none
    | r::rest => some
        { s with pos := s.pos+(next s r).length, waiting := rest
                 served := s.served ++ [(r.number,next s r)] }

def machine : Machine (State α) (Event α) := ⟨⟨[],0,[],[],0⟩,step⟩

/-- The requests served, in the order of asking, were given the data up to `pos`. -/
structure InOrder (s : State α) : Prop where
  bytes : (s.served.map Prod.snd).flatten = s.data.take s.pos
  pos : s.pos ≤ s.data.length
  order : s.served.map Prod.fst ++ s.waiting.map Request.number = List.range s.asked

theorem InOrder.feed {s : State α} (h : InOrder s) (xs : List α) :
    InOrder { s with data := s.data ++ xs } where
  bytes := by rw [List.take_append_of_le_length h.pos]; exact h.bytes
  pos := by
    have hp := h.pos
    simp only [List.length_append]
    omega
  order := h.order

theorem InOrder.ask {s : State α} (h : InOrder s) (size : ℕ) :
    InOrder { s with waiting := s.waiting ++ [⟨s.asked,size⟩], asked := s.asked+1 } where
  bytes := h.bytes
  pos := h.pos
  order := by
    simp only [List.map_append,List.map_cons,List.map_nil,List.range_succ,← h.order,
      List.append_assoc]

theorem InOrder.serve {s : State α} (h : InOrder s) {r : Request} {rest : List Request}
    (hw : s.waiting = r::rest) : InOrder
      { s with pos := s.pos+(next s r).length, waiting := rest
               served := s.served ++ [(r.number,next s r)] } where
  bytes := by
    have htake : (s.data.drop s.pos).take (next s r).length = next s r := by
      unfold next
      rw [List.take_eq_take_iff,List.length_take]
      omega
    simp only [List.map_append,List.map_cons,List.map_nil,List.flatten_append,List.flatten_cons,
      List.flatten_nil,List.append_nil,h.bytes,List.take_add,htake]
  pos := by
    have hp := h.pos
    simp only [next,List.length_take,List.length_drop]
    omega
  order := by
    have ho := h.order
    rw [hw] at ho
    simpa using ho

theorem step_inOrder {s t : State α} {e : Event α} (h : InOrder s) (ht : step s e = some t) :
    InOrder t := by
  cases e with
  | feed xs => cases ht; exact h.feed xs
  | ask size => cases ht; exact h.ask size
  | serve =>
    simp only [step] at ht
    split at ht <;> cases ht
    rename_i r rest hw
    exact h.serve hw

theorem exec_inOrder {s t : State α} {es : List (Event α)} (h : InOrder s)
    (ht : machine.exec s es = some t) : InOrder t := by
  induction es generalizing s with
  | nil => exact (Option.some.inj ht) ▸ h
  | cons e es ih =>
    obtain ⟨u,hu,ht⟩ := Option.bind_eq_some_iff.mp ht
    exact ih (step_inOrder h hu) ht

theorem start_inOrder : InOrder (machine (α := α)).start := ⟨rfl,Nat.le_refl _,rfl⟩

end Delivery
end FreshPlayer
