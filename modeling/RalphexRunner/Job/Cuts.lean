import RalphexRunner.Job.LineAssembler
import RalphexRunner.Text.Decoding

/-!
# Where a long line is cut

A line that reaches the chunk cap is cut where `floor_boundary` says.  It validates the pending
bytes: where they are UTF-8, or stop inside a sequence, the cut falls between characters.  Where
they hold a part that is not UTF-8, the whole of them is cut off, whatever sequence they end in.
So a cut divides a character exactly where pending bytes that hold an invalid part end inside a
character that the rest of the line completes.
-/

namespace RalphexRunner.LineAssembler

/-- The lengths of a line at which calls cut it. -/
def cutsFrom (start : ℕ) : List Call → List ℕ
  | [] => []
  | .pushLine piece .cut :: rest => (start + piece.length) :: cutsFrom (start + piece.length) rest
  | .pushLine piece .newline :: rest => cutsFrom (start + piece.length) rest
  | .pushBreak :: rest => cutsFrom start rest

/-- The positions at which `force` cuts a line. -/
def cuts (line : List UInt8) : List ℕ := cutsFrom 0 (new.feed line).2

/-- The pending bytes of a line under way whenever they reach the cap, and the bytes of the line
still to come. -/
def forced (assembler : LineAssembler) : List UInt8 → List (List UInt8 × List UInt8)
  | [] => []
  | byte :: rest =>
      let pending := assembler.pending ++ [byte]
      let later := forced (assembler.feedByte byte).1 rest
      if maxLogChunk ≤ pending.length then (pending, rest) :: later else later

/-- Whether some bytes hold a part that is not UTF-8, whatever may follow them. -/
def holdsInvalid (bytes : List UInt8) : Bool :=
  match Utf8.check bytes with
  | .error ⟨_, some _⟩ => true
  | .error ⟨_, none⟩ => false
  | .ok () => false

/-- The lines of an output, the bytes after the last newline as the last of them. -/
def linesOf (bytes : List UInt8) : List (List UInt8) :=
  (printedLines bytes).1 ++ [(printedLines bytes).2]

def Call.characters : Call → Text
  | .pushLine piece _ => Utf8.characters none piece
  | .pushBreak => []

variable {assembler : LineAssembler} {byte : UInt8}

theorem feedByte_forces (hbyte : byte ≠ newline)
    (hcap : maxLogChunk ≤ (assembler.pending ++ [byte]).length) :
    assembler.feedByte byte = force (assembler.pending ++ [byte]) := by
  rw [feedByte, if_neg hbyte, dif_pos hcap]

theorem feedByte_waits (hbyte : byte ≠ newline)
    (hcap : ¬ maxLogChunk ≤ (assembler.pending ++ [byte]).length) :
    (assembler.feedByte byte).1.pending = assembler.pending ++ [byte] ∧
      (assembler.feedByte byte).2 = [] := by
  rw [feedByte, if_neg hbyte, dif_neg hcap]
  exact ⟨rfl, rfl⟩

/-- The cut divides a character exactly where the pending bytes hold an invalid part and end inside
a character. -/
theorem divides_force (pending rest : List UInt8) :
    Utf8.divides none (pending.take (floorBoundary pending))
        (pending.drop (floorBoundary pending) ++ rest) =
      (holdsInvalid pending && Utf8.divides none pending rest) := by
  unfold floorBoundary holdsInvalid
  cases hcheck : Utf8.check pending with
  | ok =>
      rw [List.take_length, Utf8.divides, Utf8.after_of_check_ok hcheck]
      rfl
  | error error =>
      obtain ⟨validUpTo, errorLen⟩ := error
      cases errorLen with
      | none =>
          rw [Utf8.divides, Utf8.after_of_check_truncated hcheck]
          rfl
      | some length =>
          rw [List.take_length, List.drop_length, List.nil_append, Bool.true_and]

section Line

variable {emitted rest : List UInt8}

/-- The bytes of the line handed over once the pending bytes are cut. -/
def handedOver (emitted pending : List UInt8) : List UInt8 :=
  emitted ++ pending.take (floorBoundary pending)

theorem handedOver_append (emitted pending rest : List UInt8) :
    handedOver emitted pending ++ (pending.drop (floorBoundary pending) ++ rest) =
      emitted ++ (pending ++ rest) := by
  rw [handedOver, List.append_assoc, ← List.append_assoc (pending.take _), List.take_append_drop]

theorem inside_handedOver (emitted pending rest : List UInt8) :
    Utf8.inside (emitted ++ (pending ++ rest)) (handedOver emitted pending).length =
      Utf8.divides none (handedOver emitted pending)
        (pending.drop (floorBoundary pending) ++ rest) := by
  rw [← handedOver_append, Utf8.inside, List.take_left, List.drop_left]

/-- Behind a cut that divides no character, the next one divides a character exactly where its
pending bytes hold an invalid part and end inside a character. -/
theorem divides_handedOver {pending : List UInt8}
    (h : Utf8.divides none emitted (pending ++ rest) = false) :
    Utf8.divides none (handedOver emitted pending) (pending.drop (floorBoundary pending) ++ rest) =
      (holdsInvalid pending && Utf8.divides none pending rest) := by
  rw [← divides_force, handedOver]
  apply Utf8.divides_rest
  rwa [← List.append_assoc, List.take_append_drop]

def Divided (forced : List UInt8 × List UInt8) : Prop :=
  holdsInvalid forced.1 = true ∧ Utf8.divides none forced.1 forced.2 = true

theorem not_divided_iff (forced : List UInt8 × List UInt8) : ¬ Divided forced ↔
    (holdsInvalid forced.1 && Utf8.divides none forced.1 forced.2) = false := by
  rw [Divided, ← Bool.and_eq_true, Bool.not_eq_true]

/-- A line that reaches the cap is cut, and goes on with what the cut left. -/
theorem feed_forces (hbyte : byte ≠ newline)
    (hcap : maxLogChunk ≤ (assembler.pending ++ [byte]).length) (emitted rest : List UInt8) :
    cutsFrom emitted.length (assembler.feed (byte :: rest)).2 =
        (handedOver emitted (assembler.pending ++ [byte])).length ::
          cutsFrom (handedOver emitted (assembler.pending ++ [byte])).length
            ((force (assembler.pending ++ [byte])).1.feed rest).2 ∧
      assembler.forced (byte :: rest) = (assembler.pending ++ [byte], rest) ::
        (force (assembler.pending ++ [byte])).1.forced rest := by
  rw [feed_cons, forced, feedByte_forces hbyte hcap, if_pos hcap, handedOver, List.length_append]
  exact ⟨rfl, rfl⟩

theorem feed_waits (hbyte : byte ≠ newline)
    (hcap : ¬ maxLogChunk ≤ (assembler.pending ++ [byte]).length) (rest : List UInt8) :
    (assembler.feed (byte :: rest)).2 = ((assembler.feedByte byte).1.feed rest).2 ∧
      assembler.forced (byte :: rest) = (assembler.feedByte byte).1.forced rest := by
  rw [feed_cons, forced, if_neg hcap, (feedByte_waits hbyte hcap).2]
  exact ⟨rfl, rfl⟩

/-- From a position that divides no character on, no cut divides a character exactly where no
pending bytes with an invalid part end inside one. -/
theorem cuts_clean_iff (assembler : LineAssembler) (emitted : List UInt8) {rest : List UInt8}
    (hfree : newline ∉ rest)
    (h : Utf8.divides none emitted (assembler.pending ++ rest) = false) :
    (∀ position ∈ cutsFrom emitted.length (assembler.feed rest).2,
        Utf8.inside (emitted ++ (assembler.pending ++ rest)) position = false) ↔
      ∀ cut ∈ assembler.forced rest, ¬ Divided cut := by
  induction rest generalizing assembler emitted with
  | nil => simp [cutsFrom, forced]
  | cons byte rest ih =>
      obtain ⟨hbyte, hrest⟩ := not_or.mp (List.mem_cons.not.mp hfree)
      have hsplit : assembler.pending ++ byte :: rest = (assembler.pending ++ [byte]) ++ rest := by
        rw [List.append_assoc, List.singleton_append]
      rw [hsplit] at h ⊢
      by_cases hcap : maxLogChunk ≤ (assembler.pending ++ [byte]).length
      · obtain ⟨hcuts, hforced⟩ := feed_forces (Ne.symm hbyte) hcap emitted rest
        rw [hcuts, hforced, List.forall_mem_cons, List.forall_mem_cons]
        have hfirst : Utf8.inside (emitted ++ ((assembler.pending ++ [byte]) ++ rest))
            (handedOver emitted (assembler.pending ++ [byte])).length = false ↔
              ¬ Divided (assembler.pending ++ [byte], rest) := by
          rw [inside_handedOver, divides_handedOver h, not_divided_iff]
        rw [hfirst]
        refine and_congr_right fun hclean ↦ ?_
        have hbehind : Utf8.divides none (handedOver emitted (assembler.pending ++ [byte]))
            ((force (assembler.pending ++ [byte])).1.pending ++ rest) = false :=
          (divides_handedOver h).trans ((not_divided_iff _).mp hclean)
        have hwhole : handedOver emitted (assembler.pending ++ [byte]) ++
            ((force (assembler.pending ++ [byte])).1.pending ++ rest) =
              emitted ++ ((assembler.pending ++ [byte]) ++ rest) := handedOver_append ..
        rw [← hwhole]
        exact ih _ _ hrest hbehind
      · obtain ⟨hcuts, hforced⟩ := feed_waits (Ne.symm hbyte) hcap rest
        have hpending := (feedByte_waits (Ne.symm hbyte) hcap).1
        rw [hcuts, hforced, ← hpending]
        exact ih _ _ hrest (by rwa [hpending])

/-- Where no cut divides a character, the pieces hold the characters of the line. -/
theorem characters_kept (assembler : LineAssembler) {rest : List UInt8} (hfree : newline ∉ rest)
    (h : ∀ cut ∈ assembler.forced rest, ¬ Divided cut) :
    (assembler.feed rest).2.flatMap Call.characters ++
        Utf8.characters none (assembler.feed rest).1.pending =
      Utf8.characters none (assembler.pending ++ rest) := by
  induction rest generalizing assembler with
  | nil => simp
  | cons byte rest ih =>
      obtain ⟨hbyte, hrest⟩ := not_or.mp (List.mem_cons.not.mp hfree)
      have hsplit : assembler.pending ++ byte :: rest = (assembler.pending ++ [byte]) ++ rest := by
        rw [List.append_assoc, List.singleton_append]
      by_cases hcap : maxLogChunk ≤ (assembler.pending ++ [byte]).length
      · rw [(feed_forces (Ne.symm hbyte) hcap [] rest).2, List.forall_mem_cons] at h
        have hforces := feedByte_forces (Ne.symm hbyte) hcap
        have hclean := (divides_force _ rest).trans ((not_divided_iff _).mp h.1)
        calc
          _ = Utf8.characters none ((assembler.pending ++ [byte]).take
                (floorBoundary (assembler.pending ++ [byte]))) ++
              (((force (assembler.pending ++ [byte])).1.feed rest).2.flatMap Call.characters ++
                Utf8.characters none
                  ((force (assembler.pending ++ [byte])).1.feed rest).1.pending) := by
            rw [feed_cons, hforces, List.flatMap_append, List.append_assoc]
            simp [force, Call.characters]
          _ = Utf8.characters none ((assembler.pending ++ [byte]).take
                (floorBoundary (assembler.pending ++ [byte]))) ++
              Utf8.characters none ((assembler.pending ++ [byte]).drop
                (floorBoundary (assembler.pending ++ [byte])) ++ rest) := by
            rw [ih (force (assembler.pending ++ [byte])).1 hrest h.2]
            rfl
          _ = Utf8.characters none ((assembler.pending ++ [byte]) ++ rest) := by
            rw [← Utf8.characters_parts hclean, ← List.append_assoc, List.take_append_drop]
          _ = _ := by rw [hsplit]
      · rw [(feed_waits (Ne.symm hbyte) hcap rest).2] at h
        obtain ⟨hpending, hcalls⟩ := feedByte_waits (Ne.symm hbyte) hcap
        rw [feed_cons, hcalls, List.nil_append, ih _ hrest h, hpending, hsplit]

end Line

theorem cuts_iff {line : List UInt8} (hfree : newline ∉ line) :
    (∀ position ∈ cuts line, Utf8.inside line position = false) ↔
      ∀ cut ∈ new.forced line, ¬ Divided cut :=
  cuts_clean_iff new [] hfree rfl

theorem newline_characters (assembler : LineAssembler) :
    (assembler.feedByte newline).2.flatMap Call.characters =
      Utf8.characters none assembler.pending := by
  rw [feedByte, if_pos rfl]
  split
  · rename_i hcut
    change [] = Utf8.characters none assembler.pending
    rw [assembler.empty_of_cut hcut]
    rfl
  · exact List.flatMap_singleton ..

theorem finish_characters (assembler : LineAssembler) :
    assembler.finish.flatMap Call.characters = Utf8.characters none assembler.pending := by
  unfold finish
  split
  · rename_i hempty
    rw [List.isEmpty_iff.mp hempty]
    rfl
  · exact List.flatMap_singleton ..

theorem lineCalls_characters {line : List UInt8} (hfree : newline ∉ line)
    (h : ∀ cut ∈ new.forced line, ¬ Divided cut) :
    (lineCalls line).flatMap Call.characters = Utf8.characters none line := by
  rw [lineCalls, feed_append, feed_cons, feed_nil, List.append_nil, List.flatMap_append,
    newline_characters]
  exact characters_kept new hfree h

theorem lastCalls_characters {last : List UInt8} (hfree : newline ∉ last)
    (h : ∀ cut ∈ new.forced last, ¬ Divided cut) :
    (lastCalls last).flatMap Call.characters = Utf8.characters none last := by
  rw [lastCalls, List.flatMap_append, finish_characters]
  exact characters_kept new hfree h

theorem newline_notMem_linesOf {bytes line : List UInt8} (h : line ∈ linesOf bytes) :
    newline ∉ line := by
  obtain ⟨hlines, hlast⟩ := printedLines_newline_free bytes
  rcases List.mem_append.mp h with hline | hline
  · exact hlines line hline
  · rw [List.mem_singleton.mp hline]
    exact hlast

theorem pump_characters {reads : List (List UInt8)}
    (h : ∀ line ∈ linesOf reads.flatten, ∀ cut ∈ new.forced line, ¬ Divided cut) :
    (pump reads).flatMap Call.characters =
      (linesOf reads.flatten).flatMap (Utf8.characters none) := by
  obtain ⟨hlines, hlast⟩ := printedLines_newline_free reads.flatten
  rw [pump_eq_lines, linesOf, List.flatMap_append, List.flatMap_append, List.flatMap_singleton,
    List.flatMap_assoc]
  refine congrArg₂ _ (List.flatMap_congr fun line hline ↦ ?_) ?_
  · exact lineCalls_characters (hlines line hline) (h line (List.mem_append_left _ hline))
  · exact lastCalls_characters hlast (h _ (List.mem_append_right _ (List.mem_singleton_self _)))

/-- **Forced cuts and characters.**  However a run's output is read, no forced cut of a line falls
strictly inside a well-formed character of it, and the pieces pushed hold the characters of the
lines, exactly where no pending bytes that reach the cap hold an invalid part and end inside a
character that the rest of their line completes. -/
theorem cuts_divide_no_character (reads : List (List UInt8)) :
    ((∀ line ∈ linesOf reads.flatten, ∀ position ∈ cuts line,
        Utf8.inside line position = false) ∧
      (pump reads).flatMap Call.characters =
        (linesOf reads.flatten).flatMap (Utf8.characters none)) ↔
      ∀ line ∈ linesOf reads.flatten, ∀ cut ∈ new.forced line, ¬ Divided cut := by
  constructor
  · intro hclean line hline
    exact (cuts_iff (newline_notMem_linesOf hline)).mp (hclean.1 line hline)
  · intro hclean
    refine ⟨fun line hline ↦ ?_, pump_characters hclean⟩
    exact (cuts_iff (newline_notMem_linesOf hline)).mpr (hclean line hline)

/-- Bytes that stay below the cap wait and force nothing. -/
theorem feed_below (assembler : LineAssembler) {bytes : List UInt8} (hfree : newline ∉ bytes)
    (hbelow : (assembler.pending ++ bytes).length < maxLogChunk) (rest : List UInt8) :
    (assembler.feed bytes).1.pending = assembler.pending ++ bytes ∧
      assembler.forced (bytes ++ rest) = (assembler.feed bytes).1.forced rest := by
  induction bytes generalizing assembler with
  | nil => exact ⟨(List.append_nil _).symm, rfl⟩
  | cons byte more ih =>
      obtain ⟨hbyte, hmore⟩ := not_or.mp (List.mem_cons.not.mp hfree)
      rw [List.append_cons] at hbelow
      have hcap : ¬ maxLogChunk ≤ (assembler.pending ++ [byte]).length := by
        rw [List.length_append] at hbelow
        omega
      have hpending := (feedByte_waits (Ne.symm hbyte) hcap).1
      obtain ⟨hfed, hforced⟩ := ih (assembler.feedByte byte).1 hmore (by rwa [hpending])
      rw [feed_cons, List.cons_append, (feed_waits (Ne.symm hbyte) hcap _).2, hforced,
        List.append_cons, ← hpending]
      exact ⟨hfed, rfl⟩

theorem printedLines_of_newline_free {bytes : List UInt8} (h : newline ∉ bytes) :
    printedLines bytes = ([], bytes) := by
  induction bytes with
  | nil => rfl
  | cons byte rest ih =>
      obtain ⟨hbyte, hrest⟩ := not_or.mp (List.mem_cons.not.mp h)
      rw [printedLines, ih hrest]
      exact if_neg (Ne.symm hbyte)

/-- A byte that is not UTF-8, some letters, and the first byte of a euro sign. -/
def stained (letters : ℕ) : List UInt8 := 0xFF :: List.replicate letters 97 ++ [0xE2]

theorem newline_notMem_stained (letters : ℕ) : newline ∉ stained letters := by
  simp [stained, newline]

theorem after_stained (letters : ℕ) :
    Utf8.after none (stained letters ++ [0x82]) = Utf8.after none [0xE2, 0x82] := by
  have hletters : Utf8.after none (List.replicate letters 97) = none := by
    induction letters with
    | zero => rfl
    | succ letters ih => exact ih
  calc
    _ = Utf8.after none (List.replicate letters 97 ++ [0xE2, 0x82]) := by
      rw [stained, List.cons_append, List.cons_append, List.append_assoc]
      rfl
    _ = _ := by rw [Utf8.after_append, hletters]

/-- A line cut between the second and the third byte of its euro sign. -/
theorem divided_of_stained {letters : ℕ} (h : letters + 3 = maxLogChunk) :
    ∃ cut ∈ new.forced (stained letters ++ [0x82, 0xAC]), Divided cut := by
  have hlength : (stained letters).length + 1 = maxLogChunk := by
    simpa [stained] using h
  obtain ⟨hpending, hforced⟩ := feed_below new (newline_notMem_stained letters)
    (by rw [← hlength]; exact Nat.lt_succ_self _) [0x82, 0xAC]
  have hcap : maxLogChunk ≤ ((new.feed (stained letters)).1.pending ++ [0x82]).length := by
    rw [hpending, List.length_append, ← hlength]
    exact Nat.le_refl _
  refine ⟨(stained letters ++ [0x82], [0xAC]), ?_, rfl, ?_⟩
  · rw [hforced, (feed_forces (by decide) hcap [] [0xAC]).2, hpending]
    exact List.mem_cons_self
  · rw [Utf8.divides, after_stained]
    rfl

theorem cut_inside_a_character :
    ¬ ∀ line ∈ linesOf [stained 65533 ++ [0x82, 0xAC]].flatten, ∀ position ∈ cuts line,
      Utf8.inside line position = false := by
  intro hclean
  have hfree : newline ∉ stained 65533 ++ [0x82, 0xAC] := by
    rw [List.mem_append, not_or]
    exact ⟨newline_notMem_stained _, by decide⟩
  obtain ⟨cut, hcut, hdivided⟩ := divided_of_stained (show 65533 + 3 = maxLogChunk from rfl)
  refine (cuts_iff hfree).mp (hclean _ ?_) cut hcut hdivided
  rw [List.flatten_singleton, linesOf, printedLines_of_newline_free hfree]
  exact List.mem_singleton_self _

end RalphexRunner.LineAssembler
