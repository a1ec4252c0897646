import RalphexRunner.Protocol.Types

/-!
# The bounded ring of lines

A `Ring` keeps the youngest lines of an output within a line bound and a byte bound.  A line alone
longer than the byte bound is kept truncated.  The byte counter is tied to the lines held, so the
subtraction on eviction is exact.
-/

namespace RalphexRunner

/-- Whether a byte position lies between two characters of `text`. -/
def isCharBoundary : Text → ℕ → Bool
  | _, 0 => true
  | [], _ + 1 => false
  | character :: rest, position =>
      character.utf8Size ≤ position && isCharBoundary rest (position - character.utf8Size)

/-- The last character boundary at or before `position`. -/
def boundaryBefore (text : Text) : ℕ → ℕ
  | 0 => 0
  | position + 1 =>
      if isCharBoundary text (position + 1) then position + 1 else boundaryBefore text position

/-- The characters of the first `position` bytes, for a position between two characters. -/
def sliceTo : Text → ℕ → Text
  | [], _ => []
  | character :: rest, position =>
      if character.utf8Size ≤ position then
        character :: sliceTo rest (position - character.utf8Size)
      else []

/-- A line cut down to at most `maxBytes` bytes between two characters. -/
def clamp (line : Text) (maxBytes : ℕ) : Text :=
  if Utf8.size line ≤ maxBytes then line else sliceTo line (boundaryBefore line maxBytes)

theorem sliceTo_front (line : Text) (position : ℕ) : sliceTo line position <+: line := by
  induction line generalizing position with
  | nil => exact List.prefix_refl _
  | cons character rest ih =>
      rw [sliceTo]
      split
      · exact List.cons_prefix_cons.mpr ⟨rfl, ih _⟩
      · exact List.nil_prefix

theorem clamp_front (line : Text) (maxBytes : ℕ) : clamp line maxBytes <+: line := by
  unfold clamp
  split
  · exact List.prefix_refl line
  · exact sliceTo_front line _

/-- The total number of bytes of some lines. -/
def sizes (lines : List Text) : ℕ := (lines.map Utf8.size).sum

@[simp] theorem sizes_nil : sizes [] = 0 := rfl

@[simp] theorem sizes_cons (line : Text) (lines : List Text) :
    sizes (line :: lines) = Utf8.size line + sizes lines := rfl

@[simp] theorem sizes_append (first second : List Text) :
    sizes (first ++ second) = sizes first + sizes second := by
  simp [sizes]

/-- The youngest lines of an output, their total size, and the bounds. -/
structure Ring where
  lines : List Text
  bytes : ℕ
  maxLines : ℕ
  maxBytes : ℕ
  counted : bytes = sizes lines

namespace Ring

def new (maxLines maxBytes : ℕ) : Ring := ⟨[], 0, maxLines, maxBytes, rfl⟩

/-- The loop that drops the oldest line until both bounds hold. -/
def evict (maxLines maxBytes : ℕ) : List Text → ℕ → List Text × ℕ
  | [], bytes => ([], bytes)
  | dropped :: rest, bytes =>
      if (dropped :: rest).length ≤ maxLines ∧ bytes ≤ maxBytes then (dropped :: rest, bytes)
      else evict maxLines maxBytes rest (bytes - Utf8.size dropped)

theorem evict_counted (maxLines maxBytes : ℕ) (lines : List Text) :
    (evict maxLines maxBytes lines (sizes lines)).2 =
      sizes (evict maxLines maxBytes lines (sizes lines)).1 := by
  induction lines with
  | nil => rfl
  | cons dropped rest ih =>
      rw [evict]
      split
      · rfl
      · simpa using ih

/-- Both bounds hold of some lines. -/
def Within (maxLines maxBytes : ℕ) (lines : List Text) : Prop :=
  lines.length ≤ maxLines ∧ sizes lines ≤ maxBytes

/-- `held` is the longest suffix of `lines` within the bounds. -/
structure Youngest (maxLines maxBytes : ℕ) (lines held : List Text) : Prop where
  suffix : held <:+ lines
  within : Within maxLines maxBytes held
  longest : ∀ other, other <:+ lines → Within maxLines maxBytes other → other <:+ held

theorem youngest_nil (maxLines maxBytes : ℕ) : Youngest maxLines maxBytes [] [] :=
  ⟨List.suffix_refl _, ⟨Nat.zero_le _, Nat.zero_le _⟩, fun _ hother _ ↦ hother⟩

/-- Eviction drops from the front, and no more than the bounds ask for. -/
theorem evict_youngest (maxLines maxBytes : ℕ) (lines : List Text) :
    Youngest maxLines maxBytes lines (evict maxLines maxBytes lines (sizes lines)).1 := by
  induction lines with
  | nil => exact youngest_nil _ _
  | cons dropped rest ih =>
      rw [evict]
      split
      · rename_i hwithin
        exact ⟨List.suffix_refl _, hwithin, fun _ hother _ ↦ hother⟩
      · rename_i hover
        rw [sizes_cons, Nat.add_sub_cancel_left]
        refine ⟨ih.suffix.trans (List.suffix_cons dropped rest), ih.within,
          fun other hother hwithin ↦ ?_⟩
        rcases List.suffix_cons_iff.mp hother with rfl | hrest
        · exact absurd hwithin hover
        · exact ih.longest other hrest hwithin

/-- One line more, and the oldest lines gone that the bounds have no room for. -/
def push (ring : Ring) (line : Text) : Ring :=
  let line := clamp line ring.maxBytes
  let kept := evict ring.maxLines ring.maxBytes (ring.lines ++ [line])
    (ring.bytes + Utf8.size line)
  ⟨kept.1, kept.2, ring.maxLines, ring.maxBytes, by
    have hbytes : ring.bytes + Utf8.size line = sizes (ring.lines ++ [line]) := by
      simp [ring.counted]
    simp only [kept, hbytes]
    exact evict_counted _ _ _⟩

def snapshot (ring : Ring) : List Text := ring.lines

/-- The lines held, a newline put before each line that follows some text. -/
def joined (ring : Ring) : Text :=
  ring.lines.foldl
    (fun joined line ↦ (if joined.isEmpty then joined else joined ++ ['\n']) ++ line) []

@[simp] theorem push_maxLines (ring : Ring) (line : Text) :
    (ring.push line).maxLines = ring.maxLines := rfl

@[simp] theorem push_maxBytes (ring : Ring) (line : Text) :
    (ring.push line).maxBytes = ring.maxBytes := rfl

theorem push_lines (ring : Ring) (line : Text) : (ring.push line).lines =
    (evict ring.maxLines ring.maxBytes (ring.lines ++ [clamp line ring.maxBytes])
      (sizes (ring.lines ++ [clamp line ring.maxBytes]))).1 := by
  simp [push, ring.counted]

theorem length_push_le (ring : Ring) (line : Text) :
    (ring.push line).lines.length ≤ ring.lines.length + 1 := by
  rw [push_lines]
  have hsuffix := (evict_youngest ring.maxLines ring.maxBytes
    (ring.lines ++ [clamp line ring.maxBytes])).suffix.length_le
  rwa [List.length_append] at hsuffix

/-- A ring that holds the youngest of the lines pushed so far holds the youngest after a push. -/
theorem push_youngest {ring : Ring} {lines : List Text}
    (h : Youngest ring.maxLines ring.maxBytes lines ring.lines) (line : Text) :
    Youngest ring.maxLines ring.maxBytes (lines ++ [clamp line ring.maxBytes])
      (ring.push line).lines := by
  rw [push_lines]
  have hevicted := evict_youngest ring.maxLines ring.maxBytes
    (ring.lines ++ [clamp line ring.maxBytes])
  refine ⟨?_, hevicted.within, fun other hother hwithin ↦ hevicted.longest other ?_ hwithin⟩
  · obtain ⟨older, holder⟩ := h.suffix
    rw [← holder, List.append_assoc]
    exact hevicted.suffix.trans (List.suffix_append _ _)
  · rcases List.suffix_concat_iff.mp hother with rfl | ⟨fewer, rfl, hfewer⟩
    · exact List.nil_suffix
    · -- what fits with the new line fits without it
      have hbefore : Within ring.maxLines ring.maxBytes fewer := by
        obtain ⟨hcount, hbytes⟩ := hwithin
        rw [List.length_append] at hcount
        rw [sizes_append] at hbytes
        exact ⟨Nat.le_of_add_right_le hcount, Nat.le_of_add_right_le hbytes⟩
      obtain ⟨older, holder⟩ := h.longest fewer hfewer hbefore
      exact ⟨older, by rw [← List.append_assoc, holder]⟩

example : ((new 100 4).push "aé\uFFFD".toList).snapshot = ["aé".toList] := by decide

end Ring

end RalphexRunner
