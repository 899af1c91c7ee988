import NewClLang.CollectorLowering
import NewClLang.CollectorSafety

set_option autoImplicit false

/-!
# Temporaries and collections

Operands that wait for others to be evaluated are in no registered slot. A run in which they hold,
whenever something is allocated, only blocks that registered slots lead to keeps all that it uses.
-/
namespace NewClLang.TemporaryRoots
open Syntax Reachability CollectorMachine CollectorLowering CollectorSafety TransitionRuns

section Programs

def run (program : List Body) (main : Body) (choices : List Choice) : State :=
  choices.foldl (step (compile program)) (enterMain main)

/-- Nothing is allocated while a temporary points to a block. -/
def Scalar (s : State) : Prop :=
  allocates s = true → ∀ v ∈ s.temporaries, ∀ w ∈ v, w = none

instance (s : State) : Decidable (Scalar s) := by
  unfold Scalar
  infer_instance

theorem Scalar.temporariesKept {s : State} (h : Scalar s) : TemporariesKept s := by
  intro halloc b hb
  obtain ⟨v, hv, hbv⟩ := hb
  cases h halloc v hv (some b) hbv

def only : Choice := ⟨0, 0, []⟩

/-- `fun f(): str { str(1) }`. -/
def stringOf : Body := ⟨false, [], some (.operation (.call "str") [.literal])⟩

/-- `fun main() { str(1) + str(2) }`. -/
def concatenation : Body :=
  ⟨true, [.expression (.operation (.binary (.strict "+"))
    [.operation (.call "str") [.literal], .operation (.call "str") [.literal]])], none⟩

def concatenationChoices : List Choice :=
  [⟨0, 2, []⟩, only, ⟨0, 1, []⟩, only, only, only, only, ⟨0, 1, []⟩, only, only, only, only, only,
    only]

end Programs

end NewClLang.TemporaryRoots
