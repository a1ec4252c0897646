import RalphexRunner.LogStream.Stream

/-!
# What the farm receives of a run's output

Every step of a log stream either appends bytes behind the outgoing buffer, or hands the front of
the buffer to the farm, or leaves the buffer and its record alone (`Quiet`).  Each invariant below
is a case analysis over these three effects.  A run of the stream thus splits what was appended
into numbered chunks, bytes dropped past the cap, and the buffer, in that order of the bytes.
-/

namespace RalphexRunner.LogStream

variable {stream next : LogStream}

/-- The sequence number the next chunk of a flusher would carry. -/
def nextSeq : Task Flusher → Option Seq
  | .running (.selecting seq) => some seq
  | .running (.flushing _ seq) => some seq
  | .running (.sending _ seq) => some seq.increment
  | .ended => none
  | .aborted => none

/-- A step that leaves the buffer and its record alone, and reopens nothing. -/
structure Quiet (stream next : LogStream) : Prop where
  outgoing : next.outgoing = stream.outgoing
  appended : next.appended = stream.appended
  record : next.record = stream.record
  views : next.lines = stream.lines ∧ next.history = stream.history
  gone : stream.gone = .gone → next.gone = .gone
  seq : nextSeq next.flusher.task = nextSeq stream.flusher.task ∨
    nextSeq next.flusher.task = none

/-- The bytes an action appends to the outgoing buffer. -/
def Action.bytes : Action → List UInt8
  | .write bytes => bytes
  | .pushLine line terminator => lineBytes line terminator
  | .pushBreak => [newline]
  | _ => []

/-- One line more at most, in the lines sent to the subscribers and in the history alike. -/
def Views (stream next : LogStream) : Prop :=
  (next.lines = stream.lines ∧ next.history = stream.history) ∨
    ∃ text, next.lines = stream.lines ++ [text] ∧ next.history = stream.history.push text

/-- What one step does to the buffer, its record and the flusher. -/
inductive Effect (stream : LogStream) (action : Action) (next : LogStream) : Prop
  | appends (outgoing : next.outgoing = (stream.write action.bytes).outgoing)
      (appended : next.appended = (stream.write action.bytes).appended)
      (record : next.record = (stream.write action.bytes).record) (views : Views stream next)
      (gone : next.gone = stream.gone) (flusher : next.flusher = stream.flusher)
  | sends (phase : Phase) (seq : Seq) (task : stream.flusher.task = .running (.flushing phase seq))
      (gone : stream.gone = .open) (some_bytes : stream.nextChunk ≠ [])
      (result : next = stream.send phase seq)
  | quiet (quiet : Quiet stream next)

@[simp] theorem resume_flusher_task (stream : LogStream) (task : Task Flusher) :
    (stream.resume task).flusher.task = task := rfl

theorem nextSeq_flushed (phase : Phase) (seq : Seq) :
    nextSeq (flushed phase seq) = some seq ∨ nextSeq (flushed phase seq) = none := by
  cases phase
  · exact .inl rfl
  · exact .inr rfl

/-- A flusher that goes on to `task` under the same next number is quiet. -/
theorem quiet_resume {task : Task Flusher}
    (h : nextSeq task = nextSeq stream.flusher.task ∨ nextSeq task = none) :
    Quiet stream (stream.resume task) :=
  ⟨rfl, rfl, rfl, ⟨rfl, rfl⟩, id, h⟩

/-- A branch of the select sends nothing. -/
theorem select_quiet {wake : Wake} (h : stream.select wake = some next) : Quiet stream next := by
  unfold select at h
  split at h
  · rename_i seq htask
    cases h
    exact quiet_resume (.inl (by rw [htask]; rfl))
  · rename_i seq htask
    split at h
    · cases h
      exact ⟨rfl, rfl, rfl, ⟨rfl, rfl⟩, id, .inl (by rw [htask]; rfl)⟩
    · cases h
  · rename_i seq htask
    split at h
    · cases h
      exact quiet_resume (.inl (by rw [htask]; rfl))
    · cases h
  · cases h

/-- A flush sends the next chunk, or nothing. -/
theorem flush_effect (h : stream.flush = some next) :
    (∃ phase seq, stream.flusher.task = .running (.flushing phase seq) ∧ stream.gone = .open ∧
      stream.nextChunk ≠ [] ∧ next = stream.send phase seq) ∨ Quiet stream next := by
  unfold flush at h
  split at h
  · rename_i phase seq htask
    have hquiet : Quiet stream (stream.resume (flushed phase seq)) :=
      quiet_resume (by rw [htask]; exact nextSeq_flushed phase seq)
    split at h
    · cases h
      exact .inr hquiet
    · rename_i hgone
      split at h
      · cases h
        exact .inr hquiet
      · rename_i hchunk
        cases h
        exact .inl ⟨phase, seq, htask, hgone, by simpa using hchunk, rfl⟩
  · cases h

theorem answer_quiet {sent : Except FarmError Unit} (h : stream.answer sent = some next) :
    Quiet stream next := by
  unfold answer at h
  split at h
  · rename_i phase seq htask
    split at h
    · cases h
      exact ⟨rfl, rfl, rfl, ⟨rfl, rfl⟩, fun _ ↦ rfl, by
        rw [htask]
        exact nextSeq_flushed phase seq.increment⟩
    all_goals
      cases h
      exact quiet_resume (.inl (by rw [htask]; rfl))
  · cases h

/-- Closing moves the handle and at most ends the task. -/
theorem quiet_of_flusher {flusher : Spawned Flusher} {phase : Phase}
    (h : flusher.task = stream.flusher.task ∨ flusher.task = .aborted) :
    Quiet stream { stream with flusher, phase } := by
  refine ⟨rfl, rfl, rfl, ⟨rfl, rfl⟩, id, ?_⟩
  rcases h with h | h
  · exact .inl (by rw [h])
  · exact .inr (by rw [h]; rfl)

theorem close_quiet (stream : LogStream) : Quiet stream stream.close := by
  apply quiet_of_flusher
  unfold Spawned.take
  split <;> exact .inl rfl

theorem joined_quiet (h : stream.joined = some next) : Quiet stream next := by
  obtain ⟨flusher, hjoin, rfl⟩ := Option.map_eq_some_iff.mp h
  obtain ⟨-, -, rfl⟩ := Spawned.join_eq_some.mp hjoin
  exact quiet_of_flusher (.inl rfl)

theorem elapsed_quiet (h : stream.elapsed = some next) : Quiet stream next := by
  obtain ⟨flusher, hexpire, rfl⟩ := Option.map_eq_some_iff.mp h
  obtain ⟨-, -, rfl⟩ := Spawned.expire_eq_some.mp hexpire
  exact quiet_of_flusher (.inr rfl)

theorem interrupted_quiet (stream : LogStream) : Quiet stream stream.interrupted := by
  apply quiet_of_flusher
  unfold Spawned.detach
  split <;> exact .inl rfl

/-- Every step has one of the three effects. -/
theorem step_effect {action : Action} (h : step stream action = some next) :
    Effect stream action next := by
  cases action with
  | write bytes => cases h; exact .appends rfl rfl rfl (.inl ⟨rfl, rfl⟩) rfl rfl
  | pushLine line terminator => cases h; exact .appends rfl rfl rfl (.inr ⟨_, rfl, rfl⟩) rfl rfl
  | pushBreak => cases h; exact .appends rfl rfl rfl (.inl ⟨rfl, rfl⟩) rfl rfl
  | select wake => exact .quiet (select_quiet h)
  | flush =>
      rcases flush_effect h with ⟨phase, seq, htask, hgone, hchunk, hnext⟩ | hquiet
      · exact .sends phase seq htask hgone hchunk hnext
      · exact .quiet hquiet
  | answer sent => exact .quiet (answer_quiet h)
  | close => cases h; exact .quiet (close_quiet stream)
  | joined => exact .quiet (joined_quiet h)
  | elapsed => exact .quiet (elapsed_quiet h)
  | interrupted => cases h; exact .quiet (interrupted_quiet stream)

theorem select_ticks {wake : Wake} (h : stream.select wake = some next) :
    stream.flusher.Ticks next.flusher := by
  unfold select at h
  split at h
  · cases h
    exact ⟨_, _, ‹_›, rfl⟩
  · split at h <;> cases h
    exact ⟨_, _, ‹_›, rfl⟩
  · split at h <;> cases h
    exact ⟨_, _, ‹_›, rfl⟩
  · cases h

theorem flush_ticks (h : stream.flush = some next) : stream.flusher.Ticks next.flusher := by
  unfold flush at h
  split at h
  · split at h
    · cases h
      exact ⟨_, _, ‹_›, rfl⟩
    · split at h <;> cases h
      all_goals exact ⟨_, _, ‹_›, rfl⟩
  · cases h

theorem answer_ticks {sent : Except FarmError Unit} (h : stream.answer sent = some next) :
    stream.flusher.Ticks next.flusher := by
  unfold answer at h
  split at h
  · split at h <;> cases h
    all_goals exact ⟨_, _, ‹_›, rfl⟩
  · cases h

@[simp] theorem departed_send (stream : LogStream) (phase : Phase) (seq : Seq) :
    (stream.send phase seq).departed = stream.departed ++ stream.nextChunk := by
  simp [departed, send, Entry.bytes]

@[simp] theorem chunks_send (stream : LogStream) (phase : Phase) (seq : Seq) :
    (stream.send phase seq).chunks = stream.chunks ++ [(seq, stream.nextChunk)] := by
  simp [chunks, send]

theorem chunks_write (stream : LogStream) (bytes : List UInt8) :
    (stream.write bytes).chunks = stream.chunks := by
  simp only [chunks, write]
  split <;> simp

theorem departed_write (stream : LogStream) (bytes : List UInt8) :
    (stream.write bytes).departed = stream.departed ++ excess (stream.outgoing ++ bytes) := by
  simp only [departed, write]
  split
  · simp [Entry.bytes]
  · rename_i hfits
    rw [excess, if_neg hfits, List.append_nil, List.append_nil]

theorem excess_append_capped (buffer : List UInt8) : excess buffer ++ capped buffer = buffer := by
  unfold excess capped
  split
  · exact List.take_append_drop _ _
  · exact List.nil_append _

theorem length_capped_le (buffer : List UInt8) : (capped buffer).length ≤ logBufferBytes := by
  unfold capped
  split
  · rw [List.length_drop]
    omega
  · omega

theorem departed_congr (h : next.record = stream.record) : next.departed = stream.departed := by
  simp only [departed, h]

theorem chunks_congr (h : next.record = stream.record) : next.chunks = stream.chunks := by
  simp only [chunks, h]

/-- A write moves no byte past another and loses none that it does not record. -/
theorem write_accounted (stream : LogStream) (bytes : List UInt8) :
    (stream.write bytes).departed ++ (stream.write bytes).outgoing =
      stream.departed ++ stream.outgoing ++ bytes := by
  calc
    _ = stream.departed ++ (excess (stream.outgoing ++ bytes) ++
        capped (stream.outgoing ++ bytes)) := by rw [departed_write, List.append_assoc]; rfl
    _ = _ := by rw [excess_append_capped, List.append_assoc]

theorem write_outgoing_le (stream : LogStream) (bytes : List UInt8) :
    (stream.write bytes).outgoing.length ≤ logBufferBytes :=
  length_capped_le _

theorem send_accounted (stream : LogStream) (phase : Phase) (seq : Seq) :
    (stream.send phase seq).departed ++ (stream.send phase seq).outgoing =
      stream.departed ++ stream.outgoing := by
  rw [departed_send]
  simp only [send, nextChunk, List.append_assoc, List.take_append_drop]

theorem chunks_write_of_effect {action : Action}
    (h : next.record = (stream.write action.bytes).record) : next.chunks = stream.chunks :=
  (chunks_congr h).trans (chunks_write stream action.bytes)

/-- Where the bytes appended so far are, and how the chunks are numbered. -/
structure Accounting (stream : LogStream) : Prop where
  accounted : stream.departed ++ stream.outgoing = stream.appended
  bounded : stream.outgoing.length ≤ logBufferBytes
  numbered : stream.chunks.map (·.1.value) = List.range' 1 stream.chunks.length
  sized : ∀ chunk ∈ stream.chunks, 1 ≤ chunk.2.length ∧ chunk.2.length ≤ maxLogChunk
  next : ∀ seq, nextSeq stream.flusher.task = some seq → seq.value = stream.chunks.length + 1

theorem new_accounting : Accounting new where
  accounted := rfl
  bounded := Nat.zero_le _
  numbered := rfl
  sized := by simp [chunks, new]
  next := by
    intro seq hseq
    cases hseq
    rfl

theorem length_nextChunk_le (stream : LogStream) : stream.nextChunk.length ≤ maxLogChunk := by
  rw [nextChunk, List.length_take]
  exact Nat.min_le_left _ _

/-- A chunk that is sent leaves the buffer for the record. -/
theorem send_accounting (h : Accounting stream) {phase : Phase} {seq : Seq}
    (htask : stream.flusher.task = .running (.flushing phase seq))
    (hchunk : stream.nextChunk ≠ []) : Accounting (stream.send phase seq) where
  accounted := (send_accounted stream phase seq).trans h.accounted
  bounded := by
    have hbounded := h.bounded
    simp only [send, List.length_drop]
    omega
  numbered := by
    have hseq : seq.value = stream.chunks.length + 1 := h.next seq (by rw [htask]; rfl)
    rw [chunks_send, List.map_append, h.numbered, List.length_append, List.length_singleton,
      List.range'_1_concat, List.map_singleton, hseq, Nat.add_comm]
  sized := by
    intro chunk hmem
    rw [chunks_send, List.mem_append, List.mem_singleton] at hmem
    rcases hmem with hmem | rfl
    · exact h.sized chunk hmem
    · exact ⟨List.length_pos_iff.mpr hchunk, length_nextChunk_le stream⟩
  next := by
    intro following hfollowing
    have hseq : seq.value = stream.chunks.length + 1 := h.next seq (by rw [htask]; rfl)
    cases hfollowing
    rw [chunks_send, List.length_append, List.length_singleton, Seq.increment, hseq]

/-- Every step keeps the accounts. -/
theorem step_accounting {action : Action} (h : Accounting stream)
    (hstep : step stream action = some next) : Accounting next := by
  cases step_effect hstep with
  | appends houtgoing happended hrecord hviews hgone hflusher =>
      have hchunks := chunks_write_of_effect hrecord
      refine ⟨?_, ?_, by rw [hchunks]; exact h.numbered, by rw [hchunks]; exact h.sized,
        by rw [hchunks, hflusher]; exact h.next⟩
      · rw [departed_congr hrecord, houtgoing, write_accounted, h.accounted, happended]
        rfl
      · rw [houtgoing]
        exact write_outgoing_le stream action.bytes
  | sends phase seq htask hgone hchunk hnext =>
      subst hnext
      exact send_accounting h htask hchunk
  | quiet hquiet =>
      have hchunks := chunks_congr hquiet.record
      refine ⟨?_, by rw [hquiet.outgoing]; exact h.bounded, by rw [hchunks]; exact h.numbered,
        by rw [hchunks]; exact h.sized, ?_⟩
      · rw [departed_congr hquiet.record, hquiet.outgoing, hquiet.appended, h.accounted]
      · intro seq hseq
        rcases hquiet.seq with hsame | hnone
        · rw [hchunks]
          exact h.next seq (hsame ▸ hseq)
        · rw [hnone] at hseq
          cases hseq

theorem accounting_of_reachable (h : machine.Reachable stream) : Accounting stream :=
  h.invariant Accounting (fun _ hinit ↦ by rw [hinit]; exact new_accounting)
    (fun _ _ _ haccounting _ hstep ↦ step_accounting haccounting hstep)

theorem step_gone {action : Action} (hgone : stream.gone = .gone)
    (hstep : step stream action = some next) :
    next.gone = .gone ∧ next.chunks = stream.chunks := by
  cases step_effect hstep with
  | appends houtgoing happended hrecord hviews hsame hflusher =>
      exact ⟨hsame.trans hgone, chunks_write_of_effect hrecord⟩
  | sends phase seq htask hopen hchunk hnext =>
      rw [hgone] at hopen
      cases hopen
  | quiet hquiet => exact ⟨hquiet.gone hgone, chunks_congr hquiet.record⟩

/-- After a 410 no run of the stream sends another chunk. -/
theorem exec_gone {actions : List Action} (h : machine.Reachable stream)
    (hgone : stream.gone = .gone) (hexec : machine.exec stream actions = some next) :
    next.chunks = stream.chunks := by
  have hinv : next.gone = .gone ∧ next.chunks = stream.chunks := by
    refine h.exec_invariant (fun state ↦ state.gone = .gone ∧ state.chunks = stream.chunks)
      ?_ ⟨hgone, rfl⟩ hexec
    intro state action following _ hstate hstep
    have hfollowing := step_gone hstate.1 hstep
    exact ⟨hfollowing.1, hfollowing.2.trans hstate.2⟩
  exact hinv.2

theorem lost_congr (h : next.record = stream.record) : next.lost = stream.lost := by
  simp only [lost, h]

@[simp] theorem lost_send (stream : LogStream) (phase : Phase) (seq : Seq) :
    (stream.send phase seq).lost = stream.lost := by
  simp [lost, send]

/-- An append loses bytes only past the cap, and then the oldest down to the cap. -/
theorem lost_write (stream : LogStream) (bytes : List UInt8) :
    (stream.write bytes).lost = stream.lost ∧
        (stream.outgoing ++ bytes).length ≤ logBufferBytes ∨
      (stream.write bytes).lost = stream.lost ++ [excess (stream.outgoing ++ bytes)] ∧
        logBufferBytes < (stream.outgoing ++ bytes).length ∧
        (stream.write bytes).outgoing.length = logBufferBytes := by
  by_cases hover : logBufferBytes < (stream.outgoing ++ bytes).length
  · refine .inr ⟨?_, hover, ?_⟩
    · simp only [lost, write, if_pos hover, List.filterMap_append]
      rfl
    · rw [write, capped, if_pos hover, List.length_drop]
      omega
  · refine .inl ⟨?_, by omega⟩
    simp only [lost, write, if_neg hover, List.append_nil]

/-- The only step that loses bytes is an append past the cap, and it loses the oldest ones. -/
theorem step_lost {action : Action} (hstep : step stream action = some next) :
    next.lost = stream.lost ∨
      logBufferBytes < (stream.outgoing ++ action.bytes).length ∧
        next.lost = stream.lost ++ [excess (stream.outgoing ++ action.bytes)] ∧
        next.outgoing.length = logBufferBytes := by
  cases step_effect hstep with
  | appends houtgoing happended hrecord hviews hgone hflusher =>
      rw [lost_congr hrecord, houtgoing]
      rcases lost_write stream action.bytes with ⟨hlost, -⟩ | ⟨hlost, hover, hlength⟩
      · exact .inl hlost
      · exact .inr ⟨hover, hlost, hlength⟩
  | sends phase seq htask hgone hchunk hnext =>
      subst hnext
      exact .inl (lost_send stream phase seq)
  | quiet hquiet => exact .inl (lost_congr hquiet.record)

/-- The action keeps the buffer within the cap. -/
def Fits (stream : LogStream) (action : Action) : Prop :=
  (stream.outgoing ++ action.bytes).length ≤ logBufferBytes

theorem lost_of_fits (h : machine.ReachableBy Fits stream) : stream.lost = [] := by
  refine h.invariant (fun state ↦ state.lost = []) ?_ ?_
  · intro state hinit
    rw [hinit]
    rfl
  · intro state action following hlost hfits hstep
    rcases step_lost hstep with hsame | ⟨hover, -⟩
    · exact hsame.trans hlost
    · have hfits' : (state.outgoing ++ action.bytes).length ≤ logBufferBytes := hfits
      omega

theorem departed_of_lost (h : stream.lost = []) : stream.departed = stream.sent := by
  unfold lost at h
  unfold departed sent chunks
  generalize stream.record = record at h
  induction record with
  | nil => rfl
  | cons entry rest ih =>
      cases entry with
      | chunk seq bytes => simpa [Entry.bytes] using ih (by simpa using h)
      | dropped bytes => simp at h

end RalphexRunner.LogStream
