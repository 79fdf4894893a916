/-!
# Writer — indented text

A writer holds the text so far, a level, and whether it stands at the start of a line.  The first character of a line
is preceded by four blanks a level, the level being that of the moment; an empty line gets none.  Text may come in
pieces (`emit_append`).
-/
namespace DomainModel

/-- **A text under way.** -/
structure Writer where
  output : String
  level : Nat
  atLineStart : Bool
deriving DecidableEq, Repr

namespace Writer

def start : Writer := ⟨"", 0, true⟩

/-- A writer in the middle of a line that is empty so far: its first line is not indented. -/
def midLine : Writer := ⟨"", 0, false⟩

def indentWidth : Nat := 4

def indent (w : Writer) : Writer := { w with level := w.level + 1 }

/-- One level back; the outermost level stays. -/
def outdent (w : Writer) : Writer := { w with level := w.level - 1 }

def margin (w : Writer) : String :=
  if w.atLineStart then String.ofList (List.replicate (w.level * indentWidth) ' ') else ""

/-- One character: a line end starts a line, any other stands behind the margin. -/
def emitChar (w : Writer) (c : Char) : Writer :=
  if c = '\n' then { w with output := w.output.push '\n', atLineStart := true }
  else { w with output := (w.output ++ w.margin).push c, atLineStart := false }

/-- **A text, character by character.** -/
def emit (w : Writer) (text : String) : Writer := text.toList.foldl emitChar w

def newline (w : Writer) : Writer := { w with output := w.output.push '\n', atLineStart := true }

def emitLine (w : Writer) (text : String) : Writer := (w.emit text).newline

def indented (w : Writer) (body : Writer → Writer) : Writer := (body w.indent).outdent

def isEmpty (w : Writer) : Bool := w.output.isEmpty

/-- **A step of writing.** -/
inductive Step where
  | indent
  | outdent
  | emit (text : String)
  | emitLine (text : String)
  | newline
  /-- Several pieces of text, one after the other. -/
  | write (pieces : List String)
  /-- Steps one level deeper. -/
  | indented (body : List Step)

mutual

def step (w : Writer) : Step → Writer
  | .indent => w.indent
  | .outdent => w.outdent
  | .emit text => w.emit text
  | .emitLine text => w.emitLine text
  | .newline => w.newline
  | .write pieces => pieces.foldl emit w
  | .indented body => w.indented (·.run body)

/-- **The writer after several steps.** -/
def run (w : Writer) : List Step → Writer
  | [] => w
  | s :: steps => (w.step s).run steps

end

/-- **Two pieces are one**: what was emitted does not tell where it was cut. -/
theorem emit_append (w : Writer) (a b : String) : w.emit (a ++ b) = (w.emit a).emit b := by
  simp [emit, String.toList_append]

@[simp] theorem emit_empty (w : Writer) : w.emit "" = w := rfl

@[simp] theorem level_emitChar (w : Writer) (c : Char) : (w.emitChar c).level = w.level := by
  unfold emitChar; split <;> rfl

@[simp] theorem level_emit (w : Writer) (text : String) : (w.emit text).level = w.level := by
  unfold emit
  generalize text.toList = cs
  induction cs generalizing w with
  | nil => rfl
  | cons c cs ih => rw [List.foldl_cons, ih, level_emitChar]

@[simp] theorem level_newline (w : Writer) : w.newline.level = w.level := rfl

@[simp] theorem level_emitLine (w : Writer) (text : String) : (w.emitLine text).level = w.level := by
  simp [emitLine]

theorem newline_eq (w : Writer) : w.newline = w.emitChar '\n' := rfl

end Writer
end DomainModel
