import SinkCheck.Error

/-!
# Traces

A computation that may fail and puts out items on its way. A failure keeps what was put out before it.
-/

namespace SinkCheck

structure Trace (ω α : Type) where
  output : List ω := []
  outcome : Except AnalysisError α

namespace Trace

variable {ω α β : Type}

def bind (t : Trace ω α) (k : α → Trace ω β) : Trace ω β :=
  match t.outcome with
  | .error e => ⟨t.output, .error e⟩
  | .ok a =>
    let u := k a
    ⟨t.output ++ u.output, u.outcome⟩

instance : Monad (Trace ω) where
  pure a := ⟨[], .ok a⟩
  bind := bind

def ofExcept (x : Except AnalysisError α) : Trace ω α :=
  ⟨[], x⟩

def emit (o : ω) : Trace ω Unit :=
  ⟨[o], .ok ()⟩

def emitAll (os : List ω) : Trace ω Unit :=
  ⟨os, .ok ()⟩

theorem outcome_bind (t : Trace ω α) (k : α → Trace ω β) :
    (t >>= k).outcome = t.outcome.bind fun a => (k a).outcome := by
  show (bind t k).outcome = _
  unfold bind
  cases t.outcome <;> rfl

theorem mem_output_bind {t : Trace ω α} {k : α → Trace ω β} {o : ω} :
    o ∈ (t >>= k).output ↔ o ∈ t.output ∨ ∃ a, t.outcome = .ok a ∧ o ∈ (k a).output := by
  show o ∈ (bind t k).output ↔ _
  unfold bind
  cases t.outcome <;> simp

end Trace

end SinkCheck
