/-!
# Source positions

Where in the source text an instruction comes from. Lines and columns count from one; line zero
means that the place is not known, whatever the column.
-/

namespace RegisterMachine

/-- A line and a column of the source text. -/
structure SourcePosition where
  line : UInt32
  column : UInt32
  deriving DecidableEq, Repr, Inhabited

namespace SourcePosition

def unknown : SourcePosition := ⟨0, 0⟩

def isUnknown (p : SourcePosition) : Bool := p.line == 0

/-- `line:column`, or a question mark for an unknown position. -/
def text (p : SourcePosition) : String :=
  if p.isUnknown then "?" else s!"{p.line.toNat}:{p.column.toNat}"

@[simp] theorem isUnknown_unknown : unknown.isUnknown = true := rfl

end SourcePosition

end RegisterMachine
