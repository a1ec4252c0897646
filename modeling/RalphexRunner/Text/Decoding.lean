import Mathlib.Data.List.Induction
import RalphexRunner.Text.Utf8

/-!
# Decoding a byte sequence in two parts

`after` is where decoding stands behind some bytes, `characters` the well-formed characters it finds
in them, invalid parts left out.  A position divides a character where decoding stands inside a
sequence that the bytes behind the position complete.  Nowhere else does it matter to the
characters found that the second part is decoded for itself: a sequence that is not completed
consists of bytes no character starts with.
-/

namespace RalphexRunner.Utf8

def Reading.state : Reading → Option Partial
  | .scalar _ => none
  | .more pending => some pending

def Reading.text : Reading → Text
  | .scalar character => [character]
  | .more _ => []

/-- What a byte does in a state; one that cannot continue a sequence is read as a first byte. -/
def read (state : Option Partial) (byte : UInt8) : Option Reading :=
  match state with
  | none => lead byte
  | some pending => (pending.feed byte).or (lead byte)

/-- Where decoding stands behind some bytes. -/
def after (state : Option Partial) : List UInt8 → Option Partial
  | [] => state
  | byte :: rest => after ((read state byte).bind Reading.state) rest

def characters (state : Option Partial) : List UInt8 → Text
  | [] => []
  | byte :: rest =>
      (read state byte).elim [] Reading.text ++
        characters ((read state byte).bind Reading.state) rest

/-- Whether some bytes complete a sequence under way. -/
def Partial.completes (pending : Partial) : List UInt8 → Bool
  | [] => false
  | byte :: rest =>
      match pending.feed byte with
      | none => false
      | some (.scalar _) => true
      | some (.more longer) => longer.completes rest

/-- Whether a character begins in the first bytes and ends in the second. -/
def divides (state : Option Partial) (first second : List UInt8) : Bool :=
  (after state first).any fun pending ↦ pending.completes second

/-- Whether a position lies strictly inside a well-formed character of some bytes. -/
def inside (bytes : List UInt8) (position : ℕ) : Bool :=
  divides none (bytes.take position) (bytes.drop position)

example : (List.range 5).map (inside [0x61, 0xE2, 0x82, 0xAC]) =
    [false, false, true, true, false] := by decide

section Append

variable (state : Option Partial) (first second : List UInt8)

theorem after_append : after state (first ++ second) = after (after state first) second := by
  induction first generalizing state with
  | nil => rfl
  | cons byte rest ih => exact ih _

theorem characters_append : characters state (first ++ second) =
    characters state first ++ characters (after state first) second := by
  induction first generalizing state with
  | nil => rfl
  | cons byte rest ih =>
      rw [List.cons_append, characters, characters, ih, List.append_assoc]
      rfl

theorem divides_append (third : List UInt8) :
    divides state (first ++ second) third = divides (after state first) second third := by
  rw [divides, after_append, divides]

end Append

theorem characters_of_read {state : Option Partial} {byte : UInt8} {reading : Reading}
    (h : read state byte = some reading) (rest : List UInt8) :
    characters state (byte :: rest) = reading.text ++ characters reading.state rest := by
  rw [characters, h]
  rfl

theorem characters_of_unread {state : Option Partial} {byte : UInt8} (h : read state byte = none)
    (rest : List UInt8) : characters state (byte :: rest) = characters none rest := by
  rw [characters, h]
  rfl

theorem read_none (byte : UInt8) : read none byte = lead byte := rfl

theorem read_of_feed {pending : Partial} {byte : UInt8} {reading : Reading}
    (h : pending.feed byte = some reading) : read (some pending) byte = some reading := by
  rw [read, h, Option.some_or]

theorem read_of_unfed {pending : Partial} {byte : UInt8} (h : pending.feed byte = none) :
    read (some pending) byte = lead byte := by
  rw [read, h, Option.none_or]

/-- The next byte has to be a continuation byte. -/
def Partial.Sound (pending : Partial) : Prop := 0x80 ≤ pending.low ∧ pending.high ≤ 0xBF

theorem sound_of_lead {byte : UInt8} {pending : Partial}
    (h : lead byte = some (.more pending)) : pending.Sound := by
  simp only [lead] at h
  repeat' split at h
  all_goals
    simp only [Option.some.injEq, Reading.more.injEq, reduceCtorEq] at h
  all_goals
    rw [← h]
    simp [Partial.Sound]

theorem sound_of_feed {pending longer : Partial} {byte : UInt8}
    (h : pending.feed byte = some (.more longer)) : longer.Sound := by
  simp only [Partial.feed] at h
  split at h
  · split at h
    · simp at h
    · simp only [Option.some.injEq, Reading.more.injEq] at h
      rw [← h]
      simp [Partial.Sound]
  · simp at h

/-- No character starts with a byte that continues a sequence. -/
theorem lead_of_feed {pending : Partial} (hsound : pending.Sound) {byte : UInt8}
    {reading : Reading} (h : pending.feed byte = some reading) : lead byte = none := by
  simp only [Partial.feed] at h
  split at h
  · rename_i hrange
    obtain ⟨hlow, hhigh⟩ := hsound
    simp only [lead]
    repeat' split
    all_goals first | rfl | omega
  · cases h

theorem sound_of_read {state : Option Partial} {byte : UInt8} {pending : Partial}
    (h : (read state byte).bind Reading.state = some pending) : pending.Sound := by
  obtain ⟨reading, hread, hstate⟩ := Option.bind_eq_some_iff.mp h
  cases reading with
  | scalar character => cases hstate
  | more longer =>
      cases hstate
      cases state with
      | none => exact sound_of_lead hread
      | some before =>
          rcases Option.or_eq_some_iff.mp hread with hfeed | ⟨-, hlead⟩
          · exact sound_of_feed hfeed
          · exact sound_of_lead hlead

theorem sound_of_after {bytes : List UInt8} {pending : Partial}
    (h : after none bytes = some pending) : pending.Sound := by
  induction bytes using List.reverseRecOn with
  | nil => cases h
  | append_singleton bytes byte ih =>
      rw [after_append] at h
      exact sound_of_read h

/-- A sequence that is not completed leaves no trace in where decoding stands after it. -/
theorem divides_of_not_completes {pending : Partial} (hsound : pending.Sound)
    {first second : List UInt8} (h : pending.completes (first ++ second) = false) :
    divides (some pending) first second = divides none first second := by
  induction first generalizing pending with
  | nil => exact h
  | cons byte rest ih =>
      rw [List.cons_append, Partial.completes] at h
      cases hfeed : pending.feed byte with
      | none =>
          rw [divides, after, read_of_unfed hfeed]
          rfl
      | some reading =>
          rw [hfeed] at h
          cases reading with
          | scalar character => cases h
          | more longer =>
              have hlead : read none byte = none := lead_of_feed hsound hfeed
              calc
                _ = divides (some longer) rest second := by
                  rw [divides, after, read_of_feed hfeed]
                  rfl
                _ = divides none rest second := ih (sound_of_feed hfeed) h
                _ = _ := by
                  rw [divides, divides, after, hlead]
                  rfl

/-- Nor in the characters found after it. -/
theorem characters_of_not_completes {pending : Partial} (hsound : pending.Sound)
    {bytes : List UInt8} (h : pending.completes bytes = false) :
    characters (some pending) bytes = characters none bytes := by
  induction bytes generalizing pending with
  | nil => rfl
  | cons byte rest ih =>
      rw [Partial.completes] at h
      cases hfeed : pending.feed byte with
      | none =>
          rw [characters, characters, read_of_unfed hfeed]
          rfl
      | some reading =>
          rw [hfeed] at h
          cases reading with
          | scalar character => cases h
          | more longer =>
              have hlead : read none byte = none := lead_of_feed hsound hfeed
              calc
                _ = characters (some longer) rest := characters_of_read (read_of_feed hfeed) rest
                _ = characters none rest := ih (sound_of_feed hfeed) h
                _ = _ := (characters_of_unread hlead rest).symm

/-- Behind a position that divides no character, later positions divide the characters they divide
in the rest alone. -/
theorem divides_rest {before first second : List UInt8}
    (h : divides none before (first ++ second) = false) :
    divides none (before ++ first) second = divides none first second := by
  rw [divides_append]
  cases hafter : after none before with
  | none => rfl
  | some pending =>
      rw [divides, hafter] at h
      exact divides_of_not_completes (sound_of_after hafter) h

/-- Decoding the two parts for themselves finds the characters of the whole. -/
theorem characters_parts {first second : List UInt8} (h : divides none first second = false) :
    characters none (first ++ second) = characters none first ++ characters none second := by
  rw [characters_append]
  cases hafter : after none first with
  | none => rfl
  | some pending =>
      rw [divides, hafter] at h
      rw [characters_of_not_completes (sound_of_after hafter) h]

/-- Valid bytes leave decoding between characters. -/
theorem after_of_checkFrom_ok {state : Option Partial} {valid : ℕ} {bytes : List UInt8}
    (h : checkFrom state valid bytes = .ok ()) : after state bytes = none := by
  fun_induction checkFrom state valid bytes with
  | case1 => rfl
  | case2 | case3 | case6 => cases h
  | case4 valid byte rest character hlead ih =>
      rw [after, read_none, hlead]
      exact ih h
  | case5 valid byte rest pending hlead ih =>
      rw [after, read_none, hlead]
      exact ih h
  | case7 pending valid byte rest character hfeed ih =>
      rw [after, read_of_feed hfeed]
      exact ih h
  | case8 pending valid byte rest longer hfeed ih =>
      rw [after, read_of_feed hfeed]
      exact ih h

/-- Where validation stops for want of bytes, decoding stood between characters. -/
theorem after_of_checkFrom_truncated {state : Option Partial} {valid : ℕ} {bytes : List UInt8}
    {upTo : ℕ} (h : checkFrom state valid bytes = .error ⟨upTo, none⟩) :
    upTo = valid ∨ (valid + seenOf state < upTo ∧
      after state (bytes.take (upTo - (valid + seenOf state))) = none) := by
  have hstep {state next : Option Partial} {byte : UInt8} {rest : List UInt8} {start : ℕ}
      (hnext : (read state byte).bind Reading.state = next)
      (hrest : upTo = start + 1 ∧ next = none ∨
        (start + 1 < upTo ∧ after next (rest.take (upTo - (start + 1))) = none)) :
      start < upTo ∧ after state ((byte :: rest).take (upTo - start)) = none := by
    rcases hrest with ⟨rfl, hnone⟩ | ⟨hlt, hafter⟩
    · refine ⟨Nat.lt_succ_self start, ?_⟩
      rw [Nat.add_sub_cancel_left, List.take_succ_cons, List.take_zero, after, hnext, hnone]
      rfl
    · refine ⟨Nat.lt_of_succ_lt hlt, ?_⟩
      obtain ⟨more, hmore⟩ : ∃ more, upTo - start = more + 1 := ⟨upTo - (start + 1), by omega⟩
      rw [hmore, List.take_succ_cons, after, hnext, show more = upTo - (start + 1) by omega]
      exact hafter
  fun_induction checkFrom state valid bytes with
  | case1 | case3 | case6 => cases h
  | case2 => exact .inl (by cases h; rfl)
  | case4 valid byte rest character hlead ih =>
      have hnext : (read none byte).bind Reading.state = none := by
        rw [read_none, hlead]
        rfl
      refine .inr (hstep hnext ?_)
      rcases ih h with heq | hlater
      · exact .inl ⟨heq, rfl⟩
      · exact .inr hlater
  | case5 valid byte rest pending hlead ih =>
      have hnext : (read none byte).bind Reading.state = some pending := by
        rw [read_none, hlead]
        rfl
      rcases ih h with heq | hlater
      · exact .inl heq
      · rw [seenOf, seen_of_lead hlead] at hlater
        exact .inr (hstep hnext (.inr hlater))
  | case7 pending valid byte rest character hfeed ih =>
      have hnext : (read (some pending) byte).bind Reading.state = none := by
        rw [read_of_feed hfeed]
        rfl
      refine .inr (hstep hnext ?_)
      rcases ih h with heq | hlater
      · exact .inl ⟨heq, rfl⟩
      · exact .inr hlater
  | case8 pending valid byte rest longer hfeed ih =>
      have hnext : (read (some pending) byte).bind Reading.state = some longer := by
        rw [read_of_feed hfeed]
        rfl
      rcases ih h with heq | hlater
      · exact .inl heq
      · rw [seenOf, Partial.seen_of_feed hfeed, ← Nat.add_assoc] at hlater
        exact .inr (hstep hnext (.inr hlater))

theorem after_of_check_ok {bytes : List UInt8} (h : check bytes = .ok ()) :
    after none bytes = none :=
  after_of_checkFrom_ok h

theorem after_of_check_truncated {bytes : List UInt8} {upTo : ℕ}
    (h : check bytes = .error ⟨upTo, none⟩) : after none (bytes.take upTo) = none := by
  rcases after_of_checkFrom_truncated h with rfl | ⟨-, hafter⟩
  · rfl
  · simpa [seenOf] using hafter

end RalphexRunner.Utf8
