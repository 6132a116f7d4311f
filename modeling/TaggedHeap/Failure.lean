import TaggedHeap.Policy

/-!
Contract: failures, the answers of an operation that could not be carried out.

A `Refusal` comes from the region that a heap lives in, a `Failure` from the heap. Each is
a cause; its wording is in `message`.
-/

namespace TaggedHeap

inductive MappingDefect where
  /-- The capacity rounds down to nothing. -/
  | emptyCapacity
  /-- The capacity exceeds the address space. -/
  | noAddressSpace
deriving DecidableEq, Repr

def MappingDefect.message : MappingDefect → String
  | .emptyCapacity => "invalid input parameter"
  | .noAddressSpace => "Cannot allocate memory (os error 12)"

/-- Why a region refused. `requested` is the number of bytes before rounding. -/
inductive Refusal where
  | exhausted (requested available : Nat)
  | unmapped (defect : MappingDefect)
deriving DecidableEq, Repr

def Refusal.message : Refusal → String
  | .exhausted requested available =>
      s!"arena exhausted: requested {requested} bytes, {available} available"
  | .unmapped defect => s!"failed to map arena: {defect.message}"

inductive Failure where
  | refused (refusal : Refusal)
  | tooLarge (requested : Nat)
  | invalidPolicy (defect : PolicyDefect)
deriving DecidableEq, Repr

namespace Failure

def message : Failure → String
  | .refused refusal => refusal.message
  | .tooLarge requested =>
      s!"request of {requested} bytes exceeds the largest encodable block"
  | .invalidPolicy defect => s!"invalid configuration: {defect.message}"

/-- Whether the region refused to grow. -/
def isExhausted : Failure → Bool
  | .refused (.exhausted _ _) => true
  | _ => false

end Failure

end TaggedHeap
