import RalphexRunner.LogStream.Views

/-!
# What a ring keeps and what the tail makes of it

A ring is held to a reference that says nothing of its loop: the longest suffix of the clamped
lines within both bounds, where a clamped line is the longest front of the line that ends between
two characters and fits the byte bound.  The subtraction on eviction is also run as the source has
it, stopping below zero, and it never stops.

The tail joins what its ring kept.  It puts a newline before a line wherever there is some text
already, so empty lines in front of the first text leave no trace.
-/

namespace RalphexRunner

/-- `kept` is the longest front of `line` that ends between two characters and has at most
`maxBytes` bytes. -/
structure Clamped (maxBytes : ℕ) (line kept : Text) : Prop where
  front : kept <+: line
  within : Utf8.size kept ≤ maxBytes
  boundary : isCharBoundary line (Utf8.size kept) = true
  longest : ∀ position, isCharBoundary line position = true → position ≤ maxBytes →
    position ≤ Utf8.size kept

theorem isCharBoundary_cons {character : Char} {rest : Text} {position : ℕ} (h : position ≠ 0) :
    isCharBoundary (character :: rest) position =
      (decide (character.utf8Size ≤ position) &&
        isCharBoundary rest (position - character.utf8Size)) := by
  cases position with
  | zero => exact absurd rfl h
  | succ position => rfl

theorem isCharBoundary_size {front line : Text} (h : front <+: line) :
    isCharBoundary line (Utf8.size front) = true := by
  induction front generalizing line with
  | nil =>
      rw [Utf8.size_nil]
      cases line <;> rfl
  | cons character front ih =>
      obtain ⟨rest, rfl⟩ := h
      have hpositive := character.utf8Size_pos
      rw [List.cons_append, isCharBoundary_cons (by rw [Utf8.size_cons]; omega), Utf8.size_cons,
        Nat.add_sub_cancel_left, ih (List.prefix_append front rest)]
      simp

theorem le_size_of_isCharBoundary {line : Text} {position : ℕ}
    (h : isCharBoundary line position = true) : position ≤ Utf8.size line := by
  induction line generalizing position with
  | nil =>
      cases position with
      | zero => exact Nat.zero_le _
      | succ position => cases h
  | cons character rest ih =>
      by_cases hzero : position = 0
      · omega
      · rw [isCharBoundary_cons hzero, Bool.and_eq_true, decide_eq_true_eq] at h
        have hrest := ih h.2
        rw [Utf8.size_cons]
        omega

/-- The slice at a boundary has as many bytes as asked for. -/
theorem size_sliceTo {line : Text} {position : ℕ} (h : isCharBoundary line position = true) :
    Utf8.size (sliceTo line position) = position := by
  induction line generalizing position with
  | nil =>
      cases position with
      | zero => rfl
      | succ position => cases h
  | cons character rest ih =>
      have hpositive := character.utf8Size_pos
      by_cases hzero : position = 0
      · rw [sliceTo, if_neg (by omega), hzero, Utf8.size_nil]
      · rw [isCharBoundary_cons hzero, Bool.and_eq_true, decide_eq_true_eq] at h
        rw [sliceTo, if_pos h.1, Utf8.size_cons, ih h.2]
        omega

/-- The loop of `clamp` stops at the last boundary not behind `position`. -/
theorem boundaryBefore_spec (line : Text) (position : ℕ) :
    isCharBoundary line (boundaryBefore line position) = true ∧
      boundaryBefore line position ≤ position ∧
      ∀ other, isCharBoundary line other = true → other ≤ position →
        other ≤ boundaryBefore line position := by
  induction position with
  | zero => exact ⟨by cases line <;> rfl, Nat.le_refl _, fun _ _ h ↦ h⟩
  | succ position ih =>
      rw [boundaryBefore]
      split
      · rename_i hboundary
        exact ⟨hboundary, Nat.le_refl _, fun _ _ h ↦ h⟩
      · rename_i hinside
        refine ⟨ih.1, Nat.le_succ_of_le ih.2.1, fun other hother hle ↦ ?_⟩
        rcases Nat.lt_or_eq_of_le hle with hlt | rfl
        · exact ih.2.2 other hother (Nat.le_of_lt_succ hlt)
        · exact absurd hother hinside

theorem clamp_clamped (line : Text) (maxBytes : ℕ) :
    Clamped maxBytes line (clamp line maxBytes) := by
  unfold clamp
  split
  · rename_i hfits
    exact ⟨List.prefix_refl _, hfits, isCharBoundary_size (List.prefix_refl _),
      fun _ hposition _ ↦ le_size_of_isCharBoundary hposition⟩
  · obtain ⟨hboundary, hle, hlast⟩ := boundaryBefore_spec line maxBytes
    have hsize := size_sliceTo hboundary
    exact ⟨sliceTo_front _ _, by rw [hsize]; exact hle, by rw [hsize]; exact hboundary,
      by rw [hsize]; exact hlast⟩

namespace Ring

/-- The eviction loop with the subtraction of the source, which has no result below zero. -/
def evictChecked (maxLines maxBytes : ℕ) : List Text → ℕ → Option (List Text × ℕ)
  | [], bytes => some ([], bytes)
  | dropped :: rest, bytes =>
      if (dropped :: rest).length ≤ maxLines ∧ bytes ≤ maxBytes then some (dropped :: rest, bytes)
      else if Utf8.size dropped ≤ bytes then
        evictChecked maxLines maxBytes rest (bytes - Utf8.size dropped)
      else none

/-- Started with the size of the lines, the loop never has less in its counter than it takes. -/
theorem evictChecked_sizes (maxLines maxBytes : ℕ) (lines : List Text) :
    evictChecked maxLines maxBytes lines (sizes lines) =
      some (evict maxLines maxBytes lines (sizes lines)) := by
  induction lines with
  | nil => rfl
  | cons dropped rest ih =>
      rw [evictChecked, evict]
      split
      · rfl
      · rw [if_pos (by rw [sizes_cons]; exact Nat.le_add_right _ _), sizes_cons,
          Nat.add_sub_cancel_left]
        exact ih

/-- One push with the checked loop: the lines and the counter after it. -/
def pushChecked (ring : Ring) (line : Text) : Option (List Text × ℕ) :=
  evictChecked ring.maxLines ring.maxBytes (ring.lines ++ [clamp line ring.maxBytes])
    (ring.bytes + Utf8.size (clamp line ring.maxBytes))

theorem pushChecked_eq (ring : Ring) (line : Text) :
    ring.pushChecked line = some ((ring.push line).lines, (ring.push line).bytes) := by
  have hbytes : ring.bytes + Utf8.size (clamp line ring.maxBytes) =
      sizes (ring.lines ++ [clamp line ring.maxBytes]) := by
    simp [ring.counted]
  rw [pushChecked, hbytes, evictChecked_sizes]
  simp [push, hbytes]

/-- What a ring is after some pushes, whatever its loop did on the way. -/
structure Reference (maxLines maxBytes : ℕ) (pushed : List Text) (ring : Ring) : Prop where
  held : Youngest maxLines maxBytes (pushed.map fun line ↦ clamp line maxBytes) ring.lines
  clamped : ∀ line, Clamped maxBytes line (clamp line maxBytes)
  bytes : ring.bytes = sizes ring.lines
  exactly : ∀ line, ring.pushChecked line = some ((ring.push line).lines, (ring.push line).bytes)
  last : 1 ≤ maxLines → ∀ line, pushed.getLast? = some line →
    ring.lines.getLast? = some (clamp line maxBytes)

/-- With room for one line the ring ends with the line pushed last. -/
theorem Youngest.last {maxLines maxBytes : ℕ} {lines held : List Text} {line : Text}
    (h : Youngest maxLines maxBytes (lines ++ [line]) held) (hroom : 1 ≤ maxLines)
    (hfits : Utf8.size line ≤ maxBytes) : held.getLast? = some line := by
  have hwithin : Within maxLines maxBytes [line] := ⟨hroom, by simpa using hfits⟩
  obtain ⟨older, rfl⟩ := h.longest [line] (List.suffix_append _ _) hwithin
  exact List.getLast?_concat

theorem Keeps.reference {maxLines maxBytes : ℕ} {pushed : List Text} {ring : Ring}
    (h : Keeps maxLines maxBytes pushed ring) : Reference maxLines maxBytes pushed ring := by
  refine ⟨h.youngest, fun line ↦ clamp_clamped line maxBytes, ring.counted,
    pushChecked_eq ring, fun hroom line hlast ↦ ?_⟩
  obtain ⟨earlier, rfl⟩ := List.getLast?_eq_some_iff.mp hlast
  have hyoungest := h.youngest
  rw [List.map_append] at hyoungest
  exact hyoungest.last hroom (clamp_clamped line maxBytes).within

/-- **A ring equals its reference.**  For all bounds and every sequence of pushes. -/
theorem pushes_reference (maxLines maxBytes : ℕ) (pushed : List Text) :
    Reference maxLines maxBytes pushed (pushed.foldl push (new maxLines maxBytes)) := by
  have hkeeps := (new_keeps maxLines maxBytes).pushes pushed
  rw [List.nil_append] at hkeeps
  exact hkeeps.reference

/-- A tail that keeps its lines: they are joined by single newlines, so where none holds a newline
they are read back from it. -/
structure KeepsLines (lines : List Text) (tail : Text) : Prop where
  joined : tail = ['\n'].intercalate lines
  split : lines ≠ [] → (∀ line ∈ lines, '\n' ∉ line) → tail.splitOn '\n' = lines

theorem keepsLines_of_intercalate {lines : List Text} {tail : Text}
    (h : tail = ['\n'].intercalate lines) : KeepsLines lines tail := by
  refine ⟨h, fun hsome hclean ↦ ?_⟩
  rw [h]
  exact List.splitOn_intercalate '\n' hclean hsome

/-- The oldest of several lines is not empty. -/
def Starts (lines : List Text) : Prop := lines.length ≤ 1 ∨ lines.head? ≠ some []

theorem foldl_join_of_ne_nil {joined : Text} (h : joined ≠ []) (lines : List Text) :
    lines.foldl join joined = joined ++ lines.flatMap fun line ↦ '\n' :: line := by
  induction lines generalizing joined with
  | nil => simp
  | cons line rest ih =>
      have hjoin : join joined line = joined ++ '\n' :: line := by
        rw [join, if_neg (by simpa using h), List.append_assoc, List.singleton_append]
      rw [List.foldl_cons, hjoin, ih (by simp), List.flatMap_cons, List.append_assoc]

theorem intercalate_newline_cons (line : Text) (rest : List Text) :
    ['\n'].intercalate (line :: rest) = line ++ rest.flatMap fun line ↦ '\n' :: line := by
  induction rest generalizing line with
  | nil => simp
  | cons next rest ih =>
      rw [List.intercalate_cons_cons, ih, List.flatMap_cons]
      simp

theorem joined_of_starts {ring : Ring} (h : Starts ring.lines) :
    ring.joined = ['\n'].intercalate ring.lines := by
  rw [joined_eq]
  cases hlines : ring.lines with
  | nil => rfl
  | cons line rest =>
      rw [List.foldl_cons, intercalate_newline_cons]
      have hfirst : join [] line = line := List.nil_append _
      rw [hfirst]
      rcases h with hone | hfull
      · have hnone : rest = [] := by simpa [hlines] using hone
        rw [hnone, List.foldl_nil, List.flatMap_nil, List.append_nil]
      · exact foldl_join_of_ne_nil (by simpa [hlines] using hfull) rest

/-- An empty oldest line costs the newline behind it. -/
theorem joined_ne_of_empty {ring : Ring} {rest : List Text} (hlines : ring.lines = [] :: rest)
    (hmore : rest ≠ []) : ring.joined ≠ ['\n'].intercalate ring.lines := by
  intro heq
  have hsize := congrArg Utf8.size heq
  have hnewlines : Utf8.size (['\n'].intercalate ring.lines) = sizes rest + rest.length := by
    rw [hlines, intercalate_newline_cons, List.nil_append]
    clear hlines hmore hsize heq
    induction rest with
    | nil => rfl
    | cons line rest ih =>
        have hnewline : Char.utf8Size '\n' = 1 := rfl
        rw [List.flatMap_cons, Utf8.size_append, Utf8.size_cons, ih, hnewline, sizes_cons,
          List.length_cons]
        omega
  have hfewer : separators ring.lines ≤ rest.length - 1 := by
    have hle : (rest.dropWhile List.isEmpty).length ≤ rest.length :=
      (List.dropWhile_suffix List.isEmpty).length_le
    rw [hlines, separators, List.dropWhile_cons_of_pos rfl]
    omega
  have hlength := List.length_pos_iff.mpr hmore
  rw [size_joined, hnewlines, hlines, sizes_cons, Utf8.size_nil] at hsize
  rw [hlines] at hfewer
  omega

theorem keepsLines_iff (ring : Ring) : KeepsLines ring.lines ring.joined ↔ Starts ring.lines := by
  constructor
  · intro hkeeps
    by_contra hempty
    obtain ⟨hseveral, hfirst⟩ := not_or.mp hempty
    obtain ⟨rest, hlines⟩ : ∃ rest, ring.lines = [] :: rest :=
      List.head?_eq_some_iff.mp (not_not.mp hfirst)
    have hmore : rest ≠ [] := by
      rintro rfl
      exact hseveral (by simp [hlines])
    exact joined_ne_of_empty hlines hmore hkeeps.joined
  · intro hstarts
    exact keepsLines_of_intercalate (joined_of_starts hstarts)

end Ring

namespace LogStream

variable {stream : LogStream}

/-- **The lines of a completion tail.**  After any calls of the writers and any steps of the
flusher the tail's ring has the youngest plain lines that fit, and the text handed out keeps them
exactly where there is one line only or the oldest is not empty. -/
theorem tail_keeps_lines {actions : List Action} (h : machine.exec new actions = some stream) :
    Ring.Youngest logTailLines logTailBytes (tailLines actions) stream.tail.lines ∧
      (Ring.KeepsLines stream.tail.lines stream.tail.joined ↔ Ring.Starts stream.tail.lines) := by
  have hyoungest := (shows_of_exec h).tail.youngest
  rw [List.map_map] at hyoungest
  exact ⟨hyoungest, Ring.keepsLines_iff stream.tail⟩

theorem tail_keeps_two_lines : ∃ stream,
    machine.exec new [.pushLine [97] .newline, .pushLine [] .newline] = some stream ∧
      Ring.Youngest logTailLines logTailBytes
        (tailLines [.pushLine [97] .newline, .pushLine [] .newline]) stream.tail.lines ∧
      (Ring.KeepsLines stream.tail.lines stream.tail.joined ↔ Ring.Starts stream.tail.lines) :=
  ⟨_, rfl, tail_keeps_lines rfl⟩

/-- A blank line printed first is gone from the tail. -/
theorem tail_loses_a_blank_line : ∃ stream,
    machine.exec new [.pushLine [] .newline, .pushLine [97] .newline] = some stream ∧
      stream.tail.lines = [[], ['a']] ∧ stream.tail.joined = ['a'] ∧
        ¬ Ring.KeepsLines stream.tail.lines stream.tail.joined := by
  refine ⟨_, rfl, by decide, by decide, fun hkeeps ↦ ?_⟩
  exact absurd hkeeps.joined (by decide)

end LogStream

end RalphexRunner
