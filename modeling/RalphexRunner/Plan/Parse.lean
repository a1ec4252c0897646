import RalphexRunner.Text.Chars
import RalphexRunner.Text.Pattern

/-!
# The plan-file parser

One pass over the lines of a plan, one carriage return stripped from each.  The pass carries the
run of the fence it is inside of, the task under way and the title found; every line is put to the
patterns in a fixed order and the first that matches decides.  A line is never an error.
-/

namespace RalphexRunner

/-- How far a task of a plan has come. -/
inductive TaskStatus where
  | pending
  | active
  | done
  deriving DecidableEq

namespace Planfile

/-- The characters a dot stands for. -/
def dot (character : Char) : Bool := character ≠ '\n'

/-- The pattern `^ {0,3}(`{3,}|~{3,})(.*)$`. -/
def fencePattern : Pattern Char := .sequence [
  .many 0 (some 3) fun character ↦ character = ' ',
  .group (.either (.many 3 none fun character ↦ character = '\x60')
    (.many 3 none fun character ↦ character = '~')),
  .group (.many 0 none dot),
  .finish]

/-- The pattern `^###\s+(?:Task|Iteration)\s+([^:]+?):\s*(.*)$`. -/
def taskHeaderPattern : Pattern Char := .sequence [
  .literal "###".toList,
  .many 1 none isWhitespace,
  .either (.literal "Task".toList) (.literal "Iteration".toList),
  .many 1 none isWhitespace,
  .group (.few 1 fun character ↦ character ≠ ':'),
  .literal ":".toList,
  .many 0 none isWhitespace,
  .group (.many 0 none dot),
  .finish]

/-- The pattern `^##(?:[^#].*)?$`. -/
def sectionPattern : Pattern Char := .sequence [
  .literal "##".toList,
  .either (.sequence [.one fun character ↦ character ≠ '#', .many 0 none dot]) .nothing,
  .finish]

/-- The pattern `^#\s+(.*)$`. -/
def titlePattern : Pattern Char := .sequence [
  .literal "#".toList,
  .many 1 none isWhitespace,
  .group (.many 0 none dot),
  .finish]

/-- The pattern `^\s*-\s+\[([ xX])\]\s*(.*)$`. -/
def checkboxPattern : Pattern Char := .sequence [
  .many 0 none isWhitespace,
  .literal "-".toList,
  .many 1 none isWhitespace,
  .literal "[".toList,
  .group (.one fun character ↦ character = ' ' ∨ character = 'x' ∨ character = 'X'),
  .literal "]".toList,
  .many 0 none isWhitespace,
  .group (.many 0 none dot),
  .finish]

/-- The only group of a pattern with one. -/
def single : List Text → Option Text
  | [first] => some first
  | _ => none

/-- The groups of a pattern with two. -/
def pair : List Text → Option (Text × Text)
  | [first, second] => some (first, second)
  | _ => none

def fence (line : Text) : Option (Text × Text) := (fencePattern.captures line).bind pair

def taskHeader (line : Text) : Option (Text × Text) := (taskHeaderPattern.captures line).bind pair

def isSection (line : Text) : Bool := sectionPattern.isMatch line

def heading (line : Text) : Option Text := (titlePattern.captures line).bind single

def box (line : Text) : Option (Text × Text) := (checkboxPattern.captures line).bind pair

/-- One checkbox line inside a task. -/
structure Checkbox where
  text : Text
  checked : Bool
  deriving DecidableEq

/-- One task section of a plan. -/
structure Task where
  number : Text
  ord : ℕ
  title : Text
  status : TaskStatus
  checkboxes : List Checkbox
  deriving DecidableEq

/-- A parsed plan. -/
structure Plan where
  title : Option Text
  tasks : List Task
  deriving DecidableEq

/-- A task whose section is still being read. -/
structure OpenTask where
  number : Text
  ord : ℕ
  title : Text
  checkboxes : List Checkbox
  deriving DecidableEq

def status (checkboxes : List Checkbox) : TaskStatus :=
  let checked := checkboxes.countP Checkbox.checked
  if checked = 0 then .pending
  else if checked = checkboxes.length then .done
  else .active

def OpenTask.close (task : OpenTask) : Task where
  number := task.number
  ord := task.ord
  title := task.title
  status := status task.checkboxes
  checkboxes := task.checkboxes

/-- The greatest value of an unsigned number of 32 bits. -/
def u32Max : ℕ := 4294967295

/-- The position of a task as an unsigned number of 32 bits, the greatest where it has none. -/
def ordOf (position : ℕ) : ℕ := if position ≤ u32Max then position else u32Max

def closesFence (line opener : Text) : Bool :=
  match fence line with
  | none => false
  | some (run, rest) => opener.isPrefixOf run && (trim rest).isEmpty

/-- What the pass carries from line to line. -/
structure Pass where
  title : Option Text
  tasks : List Task
  opened : Option OpenTask
  fence : Option Text
  deriving DecidableEq

namespace Pass

def start : Pass := ⟨none, [], none, none⟩

/-- Close the open task. -/
def close (pass : Pass) : Pass :=
  match pass.opened with
  | none => pass
  | some task => { pass with tasks := pass.tasks ++ [task.close], opened := none }

/-- Open a task behind the one that was open. -/
def header (pass : Pass) (number title : Text) : Pass :=
  { pass.close with
    opened := some ⟨trim number, ordOf pass.close.tasks.length, trim title, []⟩ }

/-- Take a heading as the title, where there is none yet and it has some text. -/
def head (pass : Pass) (heading : Text) : Pass :=
  if pass.title.isNone && !(trim heading).isEmpty then { pass with title := some (trim heading) }
  else pass

/-- Add a checkbox to the open task. -/
def check (pass : Pass) (mark text : Text) : Pass :=
  match pass.opened with
  | none => pass
  | some task =>
      { pass with
        opened := some { task with
          checkboxes := task.checkboxes ++ [⟨trim text, decide (mark ≠ [' '])⟩] } }

/-- A line outside every fenced block. -/
def live (pass : Pass) (line : Text) : Pass :=
  match Planfile.fence line with
  | some (run, _) => { pass with fence := some run }
  | none =>
    match taskHeader line with
    | some (number, title) => pass.header number title
    | none =>
      if isSection line then pass.close
      else
        match heading line with
        | some heading => pass.head heading
        | none =>
          match box line with
          | some (mark, text) => pass.check mark text
          | none => pass

/-- One line. -/
def line (pass : Pass) (line : Text) : Pass :=
  match pass.fence with
  | some opener => if closesFence line opener then { pass with fence := none } else pass
  | none => pass.live line

/-- The plan at the end of the content. -/
def plan (pass : Pass) : Plan := ⟨pass.close.title, pass.close.tasks⟩

end Pass

/-- The lines of a content, one carriage return stripped from each. -/
def linesOf (content : Text) : List Text := (content.splitOn '\n').map dropCarriageReturn

/-- Parse a plan file into its title and its tasks. -/
def parse (content : Text) : Plan := ((linesOf content).foldl Pass.line Pass.start).plan

end Planfile

end RalphexRunner
