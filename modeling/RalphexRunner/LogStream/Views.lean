import RalphexRunner.LogStream.Chunks

/-!
# What the writers' calls leave in the views

Every push appends to the outgoing buffer, to both rings and to the lines of the subscribers, and
no step of the flusher touches a view.  So a run of the stream is told by its pushes: the bytes
appended are the bytes of the calls in order, the subscribers have the text of every line, the
history its youngest lines, and the tail the youngest lines without escapes.

The tail counts the bytes of its lines, while the text handed out has a newline between any two of
them.
-/

namespace RalphexRunner

namespace Ring

/-- A ring that holds the youngest of some lines, each cut down to the byte bound. -/
structure Keeps (maxLines maxBytes : ℕ) (lines : List Text) (ring : Ring) : Prop where
  lineBound : ring.maxLines = maxLines
  byteBound : ring.maxBytes = maxBytes
  youngest : Youngest maxLines maxBytes (lines.map fun line ↦ clamp line maxBytes) ring.lines

theorem new_keeps (maxLines maxBytes : ℕ) : Keeps maxLines maxBytes [] (new maxLines maxBytes) :=
  ⟨rfl, rfl, youngest_nil _ _⟩

theorem Keeps.push {maxLines maxBytes : ℕ} {lines : List Text} {ring : Ring}
    (h : Keeps maxLines maxBytes lines ring) (line : Text) :
    Keeps maxLines maxBytes (lines ++ [line]) (ring.push line) := by
  obtain ⟨rfl, rfl, hyoungest⟩ := h
  refine ⟨rfl, rfl, ?_⟩
  rw [List.map_append]
  exact push_youngest hyoungest line

theorem Keeps.pushes {maxLines maxBytes : ℕ} {lines : List Text} {ring : Ring}
    (h : Keeps maxLines maxBytes lines ring) (more : List Text) :
    Keeps maxLines maxBytes (lines ++ more) (more.foldl Ring.push ring) := by
  induction more generalizing lines ring with
  | nil =>
      rw [List.append_nil]
      exact h
  | cons line rest ih =>
      rw [List.append_cons, List.foldl_cons]
      exact ih (h.push line)

/-- The newlines `joined` puts between some lines: one before each that follows some text. -/
def separators (lines : List Text) : ℕ := (lines.dropWhile List.isEmpty).length - 1

/-- What `joined` does with one more line. -/
def join (joined line : Text) : Text :=
  (if joined.isEmpty then joined else joined ++ ['\n']) ++ line

theorem joined_eq (ring : Ring) : ring.joined = ring.lines.foldl join [] := rfl

/-- Joined lines consist of their characters and newlines. -/
theorem mem_foldl_join {character : Char} {joined : Text} {lines : List Text}
    (h : character ∈ lines.foldl join joined) :
    character = '\n' ∨ character ∈ joined ∨ ∃ line ∈ lines, character ∈ line := by
  induction lines generalizing joined with
  | nil => exact .inr (.inl h)
  | cons line rest ih =>
      rcases ih h with hnewline | hjoined | ⟨other, hother, hmem⟩
      · exact .inl hnewline
      · rcases List.mem_append.mp hjoined with hbefore | hline
        · split at hbefore
          · exact .inr (.inl hbefore)
          · rcases List.mem_append.mp hbefore with hjoined | hnewline
            · exact .inr (.inl hjoined)
            · exact .inl (List.mem_singleton.mp hnewline)
        · exact .inr (.inr ⟨line, List.mem_cons_self, hline⟩)
      · exact .inr (.inr ⟨other, List.mem_cons_of_mem _ hother, hmem⟩)

/-- What is handed out holds newlines and what the lines held. -/
theorem Keeps.mem_joined {maxLines maxBytes : ℕ} {lines : List Text} {ring : Ring}
    (h : Keeps maxLines maxBytes lines ring) {character : Char} (hmem : character ∈ ring.joined) :
    character = '\n' ∨ ∃ line ∈ lines, character ∈ line := by
  rcases mem_foldl_join hmem with hnewline | hnone | ⟨kept, hkept, hcharacter⟩
  · exact .inl hnewline
  · cases hnone
  · obtain ⟨line, hline, rfl⟩ := List.mem_map.mp (h.youngest.suffix.subset hkept)
    exact .inr ⟨line, hline, (clamp_front line _).subset hcharacter⟩

/-- Behind some text every line brings a newline. -/
theorem size_foldl_join {joined : Text} (h : joined ≠ []) (lines : List Text) :
    Utf8.size (lines.foldl join joined) = Utf8.size joined + (sizes lines + lines.length) := by
  induction lines generalizing joined with
  | nil => rfl
  | cons line rest ih =>
      have hjoin : join joined line = joined ++ ['\n'] ++ line := by
        rw [join, if_neg (by simpa using h)]
      have hnewline : Utf8.size ['\n'] = 1 := rfl
      rw [List.foldl_cons, ih (by simp [hjoin]), hjoin, Utf8.size_append, Utf8.size_append,
        hnewline, sizes_cons, List.length_cons]
      omega

theorem size_joined (ring : Ring) :
    Utf8.size ring.joined = sizes ring.lines + separators ring.lines := by
  rw [joined_eq]
  induction ring.lines with
  | nil => rfl
  | cons line rest ih =>
      rw [List.foldl_cons]
      cases line with
      | nil => simpa [join, separators] using ih
      | cons character line =>
          rw [size_foldl_join (by simp [join])]
          simp [join, separators, Nat.add_assoc]

/-- Fewer lines have no more newlines between them. -/
theorem separators_le {fewer lines : List Text} (h : fewer <:+ lines) :
    separators fewer ≤ separators lines := by
  obtain ⟨older, rfl⟩ := h
  unfold separators
  induction older with
  | nil => exact Nat.le_refl _
  | cons line rest ih =>
      rw [List.cons_append, List.dropWhile_cons]
      split
      · exact ih
      · have hlength : (fewer.dropWhile List.isEmpty).length ≤ fewer.length :=
          (List.dropWhile_suffix List.isEmpty).length_le
        simp only [List.length_cons, List.length_append]
        omega

theorem sizes_le {fewer lines : List Text} (h : fewer <:+ lines) : sizes fewer ≤ sizes lines := by
  obtain ⟨older, rfl⟩ := h
  rw [sizes_append]
  exact Nat.le_add_left _ _

/-- What `joined` hands out is within the byte bound exactly where no youngest lines that the
bounds admit are carried past it by the newlines between them. -/
theorem Keeps.joined_le_iff {maxLines maxBytes : ℕ} {lines : List Text} {ring : Ring}
    (h : Keeps maxLines maxBytes lines ring) :
    Utf8.size ring.joined ≤ maxBytes ↔
      ∀ held, held <:+ (lines.map fun line ↦ clamp line maxBytes) →
        Within maxLines maxBytes held → sizes held + separators held ≤ maxBytes := by
  rw [size_joined]
  constructor
  · intro hfits held hheld hwithin
    have hsuffix := h.youngest.longest held hheld hwithin
    calc
      _ ≤ sizes ring.lines + separators ring.lines :=
        Nat.add_le_add (sizes_le hsuffix) (separators_le hsuffix)
      _ ≤ maxBytes := hfits
  · intro hfits
    exact hfits ring.lines h.youngest.suffix h.youngest.within

end Ring

namespace LogStream

variable {stream next : LogStream}

def Action.texts : Action → List Text
  | .pushLine line _ => [lineText line]
  | _ => []

/-- The lines the calls of the writers push, in order. -/
def pushed (actions : List Action) : List Text := actions.flatMap Action.texts

/-- What an action does to the views. -/
structure Extends (stream next : LogStream) (bytes : List UInt8) (texts : List Text) : Prop where
  appended : next.appended = stream.appended ++ bytes
  lines : next.lines = stream.lines ++ texts
  history : next.history = texts.foldl Ring.push stream.history
  tail : next.tail = (texts.map Ansi.plain).foldl Ring.push stream.tail

theorem extends_nothing (happended : next.appended = stream.appended)
    (hlines : next.lines = stream.lines) (hhistory : next.history = stream.history)
    (htail : next.tail = stream.tail) : Extends stream next [] [] :=
  ⟨by rw [happended, List.append_nil], by rw [hlines, List.append_nil], hhistory, htail⟩

/-- A step adds to the views the bytes and the texts of its action. -/
theorem step_extends {action : Action} (h : step stream action = some next) :
    Extends stream next action.bytes action.texts := by
  cases action with
  | write bytes =>
      cases h
      exact ⟨rfl, (List.append_nil _).symm, rfl, rfl⟩
  | pushLine line terminator =>
      cases h
      exact ⟨rfl, rfl, rfl, rfl⟩
  | pushBreak =>
      cases h
      exact ⟨rfl, (List.append_nil _).symm, rfl, rfl⟩
  | select wake =>
      change stream.select wake = some next at h
      unfold select at h
      split at h
      · cases h
        exact extends_nothing rfl rfl rfl rfl
      · split at h <;> cases h
        exact extends_nothing rfl rfl rfl rfl
      · split at h <;> cases h
        exact extends_nothing rfl rfl rfl rfl
      · cases h
  | flush =>
      change stream.flush = some next at h
      unfold flush at h
      split at h
      · split at h
        · cases h
          exact extends_nothing rfl rfl rfl rfl
        · split at h <;> cases h
          all_goals exact extends_nothing rfl rfl rfl rfl
      · cases h
  | answer sent =>
      change stream.answer sent = some next at h
      unfold answer at h
      split at h
      · split at h <;> cases h
        all_goals exact extends_nothing rfl rfl rfl rfl
      · cases h
  | joined =>
      obtain ⟨flusher, -, rfl⟩ := Option.map_eq_some_iff.mp h
      exact extends_nothing rfl rfl rfl rfl
  | elapsed =>
      obtain ⟨flusher, -, rfl⟩ := Option.map_eq_some_iff.mp h
      exact extends_nothing rfl rfl rfl rfl
  | close | interrupted =>
      cases h
      exact extends_nothing rfl rfl rfl rfl

/-- The views after some pushes. -/
structure Shows (texts : List Text) (stream : LogStream) : Prop where
  lines : stream.lines = texts
  history : Ring.Keeps historyLines historyBytes texts stream.history
  tail : Ring.Keeps logTailLines logTailBytes (texts.map Ansi.plain) stream.tail

theorem new_shows : Shows [] new := ⟨rfl, Ring.new_keeps _ _, Ring.new_keeps _ _⟩

theorem step_shows {texts : List Text} {action : Action} (h : Shows texts stream)
    (hstep : step stream action = some next) : Shows (texts ++ action.texts) next := by
  have hextends := step_extends hstep
  refine ⟨by rw [hextends.lines, h.lines], ?_, ?_⟩
  · rw [hextends.history]
    exact h.history.pushes action.texts
  · rw [hextends.tail, List.map_append]
    exact h.tail.pushes (action.texts.map Ansi.plain)

theorem exec_shows {texts : List Text} {actions : List Action} (h : Shows texts stream)
    (hexec : machine.exec stream actions = some next) : Shows (texts ++ pushed actions) next := by
  induction actions generalizing stream texts with
  | nil =>
      cases hexec
      rw [pushed, List.flatMap_nil, List.append_nil]
      exact h
  | cons action rest ih =>
      obtain ⟨middle, hstep, hrest⟩ := Option.bind_eq_some_iff.mp hexec
      rw [pushed, List.flatMap_cons, ← List.append_assoc]
      exact ih (step_shows h hstep) hrest

theorem exec_appended {actions : List Action} (h : machine.exec stream actions = some next) :
    next.appended = stream.appended ++ actions.flatMap Action.bytes := by
  induction actions generalizing stream with
  | nil =>
      cases h
      rw [List.flatMap_nil, List.append_nil]
  | cons action rest ih =>
      obtain ⟨middle, hstep, hrest⟩ := Option.bind_eq_some_iff.mp h
      rw [ih hrest, (step_extends hstep).appended, List.flatMap_cons, List.append_assoc]

theorem shows_of_exec {actions : List Action} (h : machine.exec new actions = some stream) :
    Shows (pushed actions) stream := by
  simpa using exec_shows new_shows h

def escape : UInt8 := 0x1B

theorem escape_notMem_encode {text : Text} (h : Ansi.esc ∉ text) :
    escape ∉ Utf8.encode text := by
  intro hmem
  exact h (Utf8.ascii_of_mem_encode (by decide) hmem)

theorem escape_notMem_lineBytes (line : List UInt8) (terminator : Terminator) :
    escape ∉ lineBytes line terminator := by
  have hplain := escape_notMem_encode (Ansi.esc_notMem_plain (lineText line))
  unfold lineBytes
  rw [List.mem_append, not_or]
  exact ⟨hplain, by cases terminator <;> decide⟩

/-- The only call that can append an escape is one that appends raw bytes. -/
theorem write_of_escape {action : Action} (h : escape ∈ action.bytes) :
    ∃ bytes, action = .write bytes := by
  cases action with
  | write bytes => exact ⟨bytes, rfl⟩
  | pushLine line terminator => exact absurd h (escape_notMem_lineBytes line terminator)
  | pushBreak => exact absurd h (by decide)
  | _ => cases h

/-- Where the escapes of an output are after some actions: the farm's copy has none but those
appended as raw bytes, the tail has none, and the other two views have the lines as they came. -/
structure Stripped (actions : List Action) (stream : LogStream) : Prop where
  accounted : stream.departed ++ stream.outgoing = actions.flatMap Action.bytes
  raw : ∀ action ∈ actions, escape ∈ action.bytes → ∃ bytes, action = .write bytes
  outgoing : (∀ bytes, .write bytes ∉ actions) → escape ∉ stream.outgoing
  chunks : (∀ bytes, .write bytes ∉ actions) → ∀ chunk ∈ stream.chunks, escape ∉ chunk.2
  tail : Ansi.esc ∉ stream.tail.joined ∧ escape ∉ Utf8.encode stream.tail.joined
  lines : stream.lines = pushed actions
  history : Ring.Keeps historyLines historyBytes (pushed actions) stream.history

theorem departed_of_chunk {chunk : Seq × List UInt8} (h : chunk ∈ stream.chunks) :
    chunk.2 ⊆ stream.departed := by
  obtain ⟨entry, hentry, hchunk⟩ := List.mem_filterMap.mp h
  cases entry with
  | dropped bytes => cases hchunk
  | chunk seq bytes =>
      cases hchunk
      intro byte hbyte
      exact List.mem_flatMap.mpr ⟨_, hentry, hbyte⟩

theorem esc_notMem_tail {texts : List Text} (h : Shows texts stream) :
    Ansi.esc ∉ stream.tail.joined := by
  intro hmem
  rcases h.tail.mem_joined hmem with hnewline | ⟨line, hline, hesc⟩
  · exact absurd hnewline (by decide)
  · obtain ⟨text, -, rfl⟩ := List.mem_map.mp hline
    exact Ansi.esc_notMem_plain text hesc

/-- After any actions the views hold escapes only as they may. -/
theorem stripped_of_exec {actions : List Action} (h : machine.exec new actions = some stream) :
    Stripped actions stream := by
  have hshows := shows_of_exec h
  have haccounted : stream.departed ++ stream.outgoing = actions.flatMap Action.bytes := by
    have hreachable := Machine.Reachable.exec (.init rfl) h
    rw [(accounting_of_reachable hreachable).accounted, exec_appended h]
    rfl
  have hclean (hpushes : ∀ bytes, .write bytes ∉ actions) :
      escape ∉ stream.departed ++ stream.outgoing := by
    rw [haccounted, List.mem_flatMap]
    intro hmem
    obtain ⟨action, haction, hescape⟩ := hmem
    obtain ⟨bytes, rfl⟩ := write_of_escape hescape
    exact hpushes bytes haction
  have htail := esc_notMem_tail hshows
  refine ⟨haccounted, fun _ _ hescape ↦ write_of_escape hescape, fun hpushes hmem ↦ ?_,
    fun hpushes chunk hchunk hmem ↦ ?_, ⟨htail, escape_notMem_encode htail⟩, hshows.lines,
    hshows.history⟩
  · exact hclean hpushes (List.mem_append_right _ hmem)
  · exact hclean hpushes (List.mem_append_left _ (departed_of_chunk hchunk hmem))

/-! ## The text of the tail -/

/-- The lines the tail is given, each cut down to the byte bound. -/
def tailLines (actions : List Action) : List Text :=
  (pushed actions).map fun text ↦ clamp (Ansi.plain text) logTailBytes

theorem tail_fits_iff {actions : List Action} (h : machine.exec new actions = some stream) :
    (Utf8.encode stream.tail.joined).length ≤ logTailBytes ↔
      ∀ held, held <:+ tailLines actions → Ring.Within logTailLines logTailBytes held →
        sizes held + Ring.separators held ≤ logTailBytes := by
  have hfits := (shows_of_exec h).tail.joined_le_iff
  rw [List.map_map] at hfits
  rw [Utf8.length_encode]
  exact hfits

theorem lineText_replicate (count : ℕ) :
    lineText (List.replicate count 97) = List.replicate count 'a' := by
  have hlossy : Utf8.lossy (List.replicate count 97) = List.replicate count 'a' := by
    induction count with
    | zero => rfl
    | succ count ih => exact congrArg ('a' :: ·) ih
  rw [lineText, hlossy, dropCarriageReturn, if_neg]
  rw [List.getLast?_replicate]
  split <;> simp

theorem size_replicate (count : ℕ) : Utf8.size (List.replicate count 'a') = count := by
  have hone : Char.utf8Size 'a' = 1 := rfl
  simp [Utf8.size, hone]

theorem tailLines_replicate {count : ℕ} (hcount : count ≤ logTailBytes) (terminator : Terminator)
    (rest : List Action) :
    tailLines (.pushLine (List.replicate count 97) terminator :: rest) =
      List.replicate count 'a' :: tailLines rest := by
  have hplain : Ansi.plain (List.replicate count 'a') = List.replicate count 'a' :=
    (Ansi.plain_of_esc_notMem (by simp [Ansi.esc])).1
  have hclamp : clamp (List.replicate count 'a') logTailBytes = List.replicate count 'a' := by
    rw [clamp, size_replicate, if_pos hcount]
  have htext : pushed (.pushLine (List.replicate count 97) terminator :: rest) =
      List.replicate count 'a' :: pushed rest := by
    rw [← lineText_replicate]
    rfl
  rw [tailLines, htext, List.map_cons, hplain, hclamp]
  rfl

/-- Of three lines that leave no room for one another, the younger two are within the ceiling if the
newline between them is. -/
theorem youngest_fit {first second third : ℕ} (hfirst : first ≤ logTailBytes)
    (hover : logTailBytes < first + second + third) (hroom : second + third + 1 ≤ logTailBytes)
    {held : List Text} (hwithin : Ring.Within logTailLines logTailBytes held)
    (hheld : held <:+ tailLines [.pushLine (List.replicate first 97) .newline,
      .pushLine (List.replicate second 97) .newline,
      .pushLine (List.replicate third 97) .newline]) :
    sizes held + Ring.separators held ≤ logTailBytes := by
  have hlast : tailLines [] = [] := rfl
  rw [tailLines_replicate hfirst, tailLines_replicate (by omega), tailLines_replicate (by omega),
    hlast] at hheld
  rcases List.suffix_cons_iff.mp hheld with rfl | hyounger
  · have hbytes := hwithin.2
    simp only [sizes_cons, sizes_nil, size_replicate] at hbytes
    omega
  · have hfew : (List.dropWhile List.isEmpty
        [List.replicate second 'a', List.replicate third 'a']).length ≤ 2 :=
      (List.dropWhile_sublist _).length_le
    calc
      _ ≤ sizes [List.replicate second 'a', List.replicate third 'a'] +
          Ring.separators [List.replicate second 'a', List.replicate third 'a'] :=
        Nat.add_le_add (Ring.sizes_le hyounger) (Ring.separators_le hyounger)
      _ ≤ second + third + 1 := by
        rw [sizes_cons, sizes_cons, sizes_nil, size_replicate, size_replicate, Ring.separators]
        omega
      _ ≤ logTailBytes := hroom

/-- **The tail of a completion.**  After any calls of the writers and any steps of the flusher the
text of the tail is within the byte ceiling exactly where, of the lines pushed, no youngest ones
that fit the line bound and the byte bound exceed the ceiling together with the newlines between
them. -/
theorem tail_within {actions : List Action} (h : machine.exec new actions = some stream) :
    (Utf8.encode stream.tail.joined).length ≤ logTailBytes ↔
      ∀ held, held <:+ tailLines actions → Ring.Within logTailLines logTailBytes held →
        sizes held + Ring.separators held ≤ logTailBytes :=
  tail_fits_iff h

/-- A line that has to go, and two that reach the ceiling with the newline between them. -/
theorem tail_within_full : ∃ stream,
    machine.exec new [.pushLine (List.replicate 40000 97) .newline,
      .pushLine (List.replicate 32767 97) .newline,
      .pushLine (List.replicate 32768 97) .newline] = some stream ∧
        (Utf8.encode stream.tail.joined).length ≤ logTailBytes := by
  have hexec : machine.exec new [.pushLine (List.replicate 40000 97) .newline,
    .pushLine (List.replicate 32767 97) .newline,
    .pushLine (List.replicate 32768 97) .newline] = some _ := rfl
  refine ⟨_, hexec, (tail_within hexec).mpr fun held hheld hwithin ↦ ?_⟩
  exact youngest_fit (by decide) (by decide) (by decide) hwithin hheld

/-- Two lines that fill the tail are one byte too many with the newline between them. -/
theorem two_lines_past {count : ℕ} (hcount : count + count = logTailBytes)
    {actions : List Action}
    (hactions : actions = List.replicate 2 (.pushLine (List.replicate count 97) .newline))
    (h : machine.exec new actions = some stream) :
    ¬ (Utf8.encode stream.tail.joined).length ≤ logTailBytes := by
  intro hfits
  have hlines : tailLines actions = [List.replicate count 'a', List.replicate count 'a'] := by
    subst hactions
    rw [List.replicate_succ, tailLines_replicate (by omega), List.replicate_one,
      tailLines_replicate (by omega)]
    rfl
  have hsizes : sizes (tailLines actions) = logTailBytes := by
    rw [hlines, sizes_cons, sizes_cons, size_replicate, sizes_nil, ← hcount, Nat.add_zero]
  have hseparators : Ring.separators (tailLines actions) = 1 := by
    have hpositive : count ≠ 0 := by
      rintro rfl
      exact absurd hcount (by decide)
    rw [hlines, Ring.separators, List.dropWhile_cons_of_neg (by simpa using hpositive)]
    rfl
  have hcountLines : (tailLines actions).length ≤ logTailLines := by
    rw [hlines]
    exact (by decide : 2 ≤ logTailLines)
  have hwithin : Ring.Within logTailLines logTailBytes (tailLines actions) :=
    ⟨hcountLines, Nat.le_of_eq hsizes⟩
  have hover := (tail_fits_iff h).mp hfits _ (List.suffix_refl _) hwithin
  rw [hsizes, hseparators] at hover
  exact absurd hover (Nat.not_succ_le_self _)

theorem tail_past_the_ceiling : ∃ stream,
    machine.exec new (List.replicate 2 (.pushLine (List.replicate 32768 97) .newline)) =
      some stream ∧
        ¬ (Utf8.encode stream.tail.joined).length ≤ logTailBytes :=
  ⟨_, rfl, two_lines_past rfl rfl rfl⟩

end LogStream

end RalphexRunner
