import Pyjobby.ReadStream

/-! The end of `read_stream`: what a reader has yielded when it returns, and that it
returns. -/

namespace Pyjobby

open Relational Transition

/-- How many turns a reader has before it at most, once the rows in front of it do not
change: none of them is the marker and the job is terminal, or the last one is. -/
def Reader.left (rows : List StreamRow) (r : Reader) : Nat :=
  let rest := rows.drop r.nextSeq.toNat
  let marked := rest.any StreamRow.closed
  let late := if r.final then 0 else 10
  match r.phase with
  | .idle | .returned | .raised => 0
  | .fetching => 3 * rest.length + 3 + late
  | .waiting => 3 * rest.length + 4 + late
  | .yielding batch full =>
    3 * (rest.length - batch.length) + batch.length + late +
      if full then 4 else if marked ∧ batch.length < rest.length then 6 else 2
  | .checking => 3 * rest.length + late + if marked then 5 else 1

namespace Reader

variable {r : Reader} {rows : List StreamRow}

/-- A batch shorter than the limit is all that there was in front. -/
theorem left_fetch {limit : Nat} (hphase : r.phase = .fetching) (hlimit : 0 < limit) :
    Reader.left rows { r with
      phase := .yielding ((rows.drop r.nextSeq.toNat).take limit)
        (decide (((rows.drop r.nextSeq.toNat).take limit).length = limit)) } + 1 ≤ r.left rows := by
  generalize hrest : rows.drop r.nextSeq.toNat = rest
  simp only [Reader.left, hphase, hrest, List.length_take, decide_eq_true_eq]
  by_cases hfull : min limit rest.length = limit
  · rw [if_pos hfull]
    omega
  · have hwhole : min limit rest.length = rest.length := by omega
    have hshort : ¬(rest.any StreamRow.closed = true ∧ min limit rest.length < rest.length) :=
      fun h => by omega
    rw [if_neg hfull, if_neg hshort]
    omega

theorem left_drained {full : Bool} (hphase : r.phase = .yielding [] full) :
    Reader.left rows { r with
      phase := if full then .fetching else if r.final then .returned else .checking } + 1 ≤
        r.left rows := by
  generalize hrest : rows.drop r.nextSeq.toNat = rest
  have hpos : rest.any StreamRow.closed = true → 0 < rest.length := fun hmarked => by
    obtain ⟨r, hr, -⟩ := List.any_eq_true.mp hmarked
    exact List.length_pos_of_mem hr
  cases full with
  | true =>
    simp only [Reader.left, hphase, hrest, if_true, List.length_nil]
    omega
  | false =>
    cases hfinal : r.final with
    | true =>
      simp only [Reader.left, hphase, hrest, hfinal, Bool.false_eq_true, if_false, if_true,
        List.length_nil]
      split_ifs <;> omega
    | false =>
      simp only [Reader.left, hphase, hrest, hfinal, Bool.false_eq_true, if_false,
        List.length_nil]
      by_cases hmarked : rest.any StreamRow.closed = true
      · rw [if_pos hmarked, if_pos ⟨hmarked, hpos hmarked⟩]
        omega
      · rw [if_neg hmarked, if_neg fun h => hmarked h.1]
        omega

end Reader

namespace ReadSys

variable {limit : Nat} {jid : Nat} {key : String} {offset : Int} {s s' : ReadSys} {a : ReadAct}

/-- The reader has begun, and its end is in sight. -/
structure Ending (jid : Nat) (key : String) (offset : Int) (s : ReadSys) : Prop where
  tracks : Tracks jid key offset s
  begun : s.reader.phase ≠ .idle
  ends : s.world.db.jobTerminal jid ∨
    ((s.rows jid key).drop s.reader.nextSeq.toNat).any StreamRow.closed

theorem Ending.rows_world (hs : Ending jid key offset s) {act : Act} {w' : World}
    (hcalm : s.Calm jid (.world act)) (h : s.world.step act = some w') :
    w'.db.streamRows jid key = s.rows jid key := by
  cases World.step_streams hs.tracks.ground.fenced (hs.tracks.ground.dense jid key) h with
  | kept rows => exact rows
  | appended new writer seq unclosed rows =>
    rcases hs.ends with hterm | hmarked
    · exact absurd writer (not_appended hterm)
    · obtain ⟨r, hr, hclosed⟩ := List.any_eq_true.mp hmarked
      simp [unclosed r (List.mem_of_mem_drop hr)] at hclosed
  | cleared act rows =>
    have hcalm := hcalm.resolve_left hs.begun
    simp [resets_of_cleared act] at hcalm

theorem Ending.world (hs : Ending jid key offset s) {act : Act} {w' : World}
    (hcalm : s.Calm jid (.world act)) (h : s.world.step act = some w') :
    Ending jid key offset { s with world := w' } := by
  have hrows := hs.rows_world hcalm h
  refine ⟨hs.tracks.world hcalm h, hs.begun, ?_⟩
  rcases hs.ends with hterm | hmarked
  · exact .inl (World.terminal_stays hs.tracks.ground.locks h (hcalm.resolve_left hs.begun) hterm)
  · refine .inr ?_
    show ((w'.db.streamRows jid key).drop _).any _
    rwa [hrows]

theorem Ending.reader (hs : Ending jid key offset s) (hlimit : 0 < limit) {r' : Reader}
    (h : s.reader.move limit jid key s.world.db a = some r') :
    Ending jid key offset { s with reader := r' } ∧
      r'.left (s.rows jid key) + 1 ≤ s.reader.left (s.rows jid key) := by
  have htracks := hs.tracks.reader h
  have hreading := hs.tracks.reading
  cases a with
  | world act => cases h
  | start =>
    simp only [Reader.move] at h
    split at h
    · rename_i hphase
      exact absurd hphase hs.begun
    · cases h
  | fetch =>
    simp only [Reader.move] at h
    split at h
    · rename_i hphase
      cases h
      refine ⟨⟨htracks, (fun h => by cases h), hs.ends⟩, ?_⟩
      rw [Db.readStream_eq (hs.tracks.ground.dense jid key)]
      exact Reader.left_fetch hphase hlimit
    · cases h
  | next =>
    simp only [Reader.move] at h
    split at h
    · rename_i row batch full hphase
      split at h
      · rename_i hclosed
        cases h
        refine ⟨⟨htracks, (fun h => by cases h), hs.ends⟩, ?_⟩
        simp only [Reader.left, hphase, List.length_cons]
        omega
      · rename_i hopen
        cases h
        obtain ⟨hdrop, hnext⟩ := hreading.next hphase (seq_eq hs.tracks.ground)
        have hopen : row.closed = false := by simpa using hopen
        refine ⟨⟨htracks, (fun h => by cases h), hs.ends.imp_right fun hmarked => ?_⟩, ?_⟩
        · show ((s.rows jid key).drop ((row.seq : Int) + 1).toNat).any _
          rw [hdrop, List.any_cons, hopen, Bool.false_or] at hmarked
          rwa [hnext]
        · simp only [Reader.left, hphase, hdrop, hnext, List.length_cons, List.any_cons, hopen,
            Bool.false_or, Nat.add_lt_add_iff_right, Nat.add_sub_add_right]
          omega
    · rename_i full hphase
      cases h
      refine ⟨⟨htracks, ?_, hs.ends⟩, Reader.left_drained hphase⟩
      dsimp only
      split_ifs <;> exact fun h => by cases h
    · cases h
  | check =>
    simp only [Reader.move] at h
    split at h
    · rename_i hphase
      have hfinal := hreading.checking hphase
      split at h
      · cases h
        refine ⟨⟨htracks, (fun h => by cases h), hs.ends⟩, ?_⟩
        simp only [Reader.left, hphase, hfinal]
        split_ifs <;> omega
      · rename_i job hjob
        obtain ⟨hmem, hid⟩ := Serial.find?_eq_some.mp hjob
        split at h
        · cases h
          refine ⟨⟨htracks, (fun h => by cases h), hs.ends⟩, ?_⟩
          simp only [Reader.left, hphase, hfinal, if_true, Bool.false_eq_true, if_false]
          omega
        · rename_i hlive
          cases h
          have hmarked :
              ((s.rows jid key).drop s.reader.nextSeq.toNat).any StreamRow.closed = true :=
            hs.ends.resolve_left (by
              rintro ⟨r, hr, hrid, hterm⟩
              exact hlive (Serial.eq_of_ident hr hmem (hrid.trans hid.symm) ▸ hterm))
          refine ⟨⟨htracks, (fun h => by cases h), hs.ends⟩, ?_⟩
          simp only [Reader.left, hphase, hfinal]
          rw [if_pos hmarked]
          omega
    · cases h
  | wake =>
    simp only [Reader.move] at h
    split at h
    · rename_i hphase
      cases h
      refine ⟨⟨htracks, (fun h => by cases h), hs.ends⟩, ?_⟩
      simp only [Reader.left, hphase]
      omega
    · cases h

theorem Ending.rows_step (hs : Ending jid key offset s) (hcalm : s.Calm jid a)
    (h : s.step limit jid key a = some s') : s'.rows jid key = s.rows jid key := by
  rcases step_cases h with ⟨act, w', rfl, hw', rfl⟩ | ⟨-, r', -, rfl⟩
  · exact hs.rows_world hcalm hw'
  · rfl

theorem Ending.step (hs : Ending jid key offset s) (hlimit : 0 < limit) (hcalm : s.Calm jid a)
    (h : s.step limit jid key a = some s') : Ending jid key offset s' ∧
      s'.reader.left (s'.rows jid key) + (if a.reads then 1 else 0) ≤
        s.reader.left (s.rows jid key) := by
  rcases step_cases h with ⟨act, w', rfl, hw', rfl⟩ | ⟨hreads, r', hr', rfl⟩
  · have hrows : rows { s with world := w' } jid key = s.rows jid key := hs.rows_world hcalm hw'
    exact ⟨hs.world hcalm hw', by simp [hrows, ReadAct.reads]⟩
  · obtain ⟨hending, hle⟩ := hs.reader hlimit hr'
    rw [if_pos hreads]
    exact ⟨hending, hle⟩

/-- A reader that has not come to its end can go on. -/
theorem enabled (limit : Nat) (jid : Nat) (key : String) (hreturned : s.reader.phase ≠ .returned)
    (hraised : s.reader.phase ≠ .raised) :
    ∃ a, a.reads ∧ (s.step limit jid key a).isSome := by
  cases hphase : s.reader.phase with
  | idle => exact ⟨.start, rfl, by simp [step, Reader.move, hphase]⟩
  | fetching => exact ⟨.fetch, rfl, by simp [step, Reader.move, hphase]⟩
  | yielding batch full =>
    refine ⟨.next, rfl, ?_⟩
    cases batch with
    | nil => simp [step, Reader.move, hphase]
    | cons row rest =>
      simp only [step, Reader.move, hphase, Option.isSome_map]
      split <;> rfl
  | checking =>
    refine ⟨.check, rfl, ?_⟩
    simp only [step, Reader.move, hphase, Option.isSome_map]
    split
    · rfl
    · split <;> rfl
  | waiting => exact ⟨.wake, rfl, by simp [step, Reader.move, hphase]⟩
  | returned => exact absurd hphase hreturned
  | raised => exact absurd hphase hraised

/-- What the reader has yielded is the beginning of what it is to yield, and all of it
when it has returned. -/
theorem Tracks.yields (hs : Tracks jid key offset s) :
    s.reader.yielded <+: (s.world.db.getStream jid key).values.drop offset.toNat ∧
      (s.reader.phase = .returned →
        s.reader.yielded = (s.world.db.getStream jid key).values.drop offset.toNat ∧
          (s.world.db.jobTerminal jid ∨
            ∃ r ∈ s.rows jid key, r.closed ∧ offset ≤ r.seq)) := by
  have hreading := hs.reading
  have hdense := hs.ground.dense jid key
  have hvalues := Db.getStream_values hdense
  have hlast := hdense.marker
  rw [hvalues, hreading.yielded, ← List.map_drop]
  refine ⟨(take_drop_seen hlast hreading.unclosed).map _, fun hphase => ?_⟩
  rcases hreading.returned hphase with ⟨r, hr, hclosed⟩ | ⟨hnil, hfinal⟩
  · rw [takeWhile_of_marker hlast hr hclosed]
    refine ⟨rfl, .inr ⟨r, List.mem_of_getElem? hr, hclosed, ?_⟩⟩
    have := hdense.seq_eq hr
    have := hreading.start
    omega
  · have htake : (s.rows jid key).take s.reader.nextSeq.toNat = s.rows jid key :=
      List.take_of_length_le (List.drop_eq_nil_iff.mp hnil)
    have hunclosed := hreading.unclosed
    rw [htake] at hunclosed ⊢
    exact ⟨congrArg (List.map StreamRow.value) (drop_of_seen hlast hunclosed).symm,
      .inl (hs.final hfinal)⟩

/-- Once begun, a reader that has the marker ahead of its offset, or a terminal job, ends. -/
theorem Tracks.ending (hs : Tracks jid key offset s) (hbegun : s.reader.phase ≠ .idle)
    (hends : s.world.db.jobTerminal jid ∨ ∃ r ∈ s.rows jid key, r.closed ∧ offset ≤ r.seq) :
    Ending jid key offset s := by
  refine ⟨hs, hbegun, hends.imp_right ?_⟩
  rintro ⟨r, hr, hclosed, hle⟩
  obtain ⟨i, hi⟩ := List.getElem?_of_mem hr
  have hseq := (hs.ground.dense jid key).seq_eq hi
  have hahead : s.reader.nextSeq.toNat ≤ i := by
    by_contra hlt
    have hmem : r ∈ ((s.rows jid key).take s.reader.nextSeq.toNat).drop offset.toNat := by
      refine List.mem_of_getElem? (i := i - offset.toNat) ?_
      rw [List.getElem?_drop, List.getElem?_take_of_lt (by omega), ← hi]
      congr 1
      omega
    simp [hs.reading.unclosed r hmem] at hclosed
  refine List.any_eq_true.mpr ⟨r, List.mem_of_getElem?
    (i := i - s.reader.nextSeq.toNat) ?_, hclosed⟩
  rw [List.getElem?_drop, Nat.add_sub_cancel' hahead, hi]

theorem move_raised {r r' : Reader} {db : Db} (h : r.move limit jid key db a = some r')
    (hraised : r'.phase = .raised) : db.jorb.find? jid = none := by
  cases a with
  | check =>
    simp only [Reader.move] at h
    split at h
    · split at h
      · assumption
      · split at h
        all_goals
          cases h
          cases hraised
    · cases h
  | _ =>
    simp only [Reader.move] at h
    repeat' split at h
    all_goals cases h
    all_goals cases hraised

/-- Any tables whose streams are dense, and a reader that has not begun. -/
def Fresh (offset : Int) (ρ : Run (ReadSys.step limit jid key)) : Prop :=
  ∃ db clock queue, ρ.state 0 = ⟨.init db clock queue, .new offset⟩ ∧ ∀ j k, db.Dense j k

variable {ρ : Run (ReadSys.step limit jid key)}

theorem ground_run (hρ : Fresh offset ρ) : ∀ n ≤ ρ.length, Ground (ρ.state n).world := by
  obtain ⟨db, clock, queue, h0, hdense⟩ := hρ
  refine ρ.invariant (P := fun s => Ground s.world) ?_ fun hs h => ?_
  · rw [h0]
    exact ⟨Locks.init db clock queue, Fenced.init db clock queue, hdense⟩
  · rcases step_cases h with ⟨act, w', rfl, hw', rfl⟩ | ⟨-, r', -, rfl⟩
    · exact hs.step hw'
    · exact hs

theorem tracks_run (hρ : Fresh offset ρ)
    (hcalm : ∀ n < ρ.length, (ρ.state n).Calm jid (ρ.act n)) :
    ∀ n ≤ ρ.length, Tracks jid key offset (ρ.state n) := by
  have hground := ground_run hρ 0 (Nat.zero_le _)
  obtain ⟨db, clock, queue, h0, -⟩ := hρ
  refine ρ.invariant_of hcalm ?_ fun hs hcalm h => hs.step hcalm h
  rw [h0] at hground ⊢
  exact ⟨hground, Reading.new offset _, nofun⟩

theorem raised_run (hρ : Fresh offset ρ) : ∀ n ≤ ρ.length, (ρ.state n).reader.phase = .raised →
    ∃ m < n, (ρ.state m).world.db.jorb.find? jid = none := by
  obtain ⟨db, clock, queue, h0, -⟩ := hρ
  intro n
  induction n with
  | zero =>
    intro _ hraised
    rw [h0] at hraised
    cases hraised
  | succ n ih =>
    intro hn hraised
    rcases step_cases (ρ.next n hn) with ⟨act, w', -, -, heq⟩ | ⟨-, r', hr', heq⟩
    · rw [heq] at hraised
      obtain ⟨m, hm, hnone⟩ := ih (Nat.le_of_succ_le hn) hraised
      exact ⟨m, Nat.lt_succ_of_lt hm, hnone⟩
    · rw [heq] at hraised
      exact ⟨n, Nat.lt_succ_self n, move_raised hr' hraised⟩

end ReadSys

/-- In every state the sequences of a stream are 0 to n - 1 and nothing follows the
marker. While the terminal job is not requeued and nothing is wiped or removed, what a
reader has yielded is the beginning of what `get_stream` gives from the offset on, and all
of it once the reader has returned, which it does only when the job is terminal or the
marker is there, at the offset or after it. From then on the stream does not change and
the reader takes no more than `left` turns; until it ends, it can take one. -/
theorem read_stream_exact (limit : Nat) (hlimit : 0 < limit) (jid : Nat) (key : String)
    (offset : Int) (ρ : Run (ReadSys.step limit jid key)) (hρ : ReadSys.Fresh offset ρ) :
    (∀ n ≤ ρ.length, ∀ j k, (ρ.state n).world.db.Dense j k) ∧
    ((∀ n < ρ.length, (ρ.state n).Calm jid (ρ.act n)) →
      (∀ n ≤ ρ.length,
        (ρ.state n).reader.yielded <+:
          ((ρ.state n).world.db.getStream jid key).values.drop offset.toNat ∧
        ((ρ.state n).reader.phase = .returned →
          (ρ.state n).reader.yielded =
            ((ρ.state n).world.db.getStream jid key).values.drop offset.toNat ∧
          ((ρ.state n).world.db.jobTerminal jid ∨
            ∃ r ∈ (ρ.state n).rows jid key, r.closed ∧ offset ≤ r.seq)) ∧
        ((ρ.state n).reader.phase = .raised →
          ∃ m < n, (ρ.state m).world.db.jorb.find? jid = none) ∧
        ((ρ.state n).reader.phase ≠ .returned → (ρ.state n).reader.phase ≠ .raised →
          ∃ a, a.reads ∧ ((ρ.state n).step limit jid key a).isSome)) ∧
      ∀ n k, n ≤ k → k ≤ ρ.length → (ρ.state n).reader.phase ≠ .idle →
        ((ρ.state n).world.db.jobTerminal jid ∨
          ∃ r ∈ (ρ.state n).rows jid key, r.closed ∧ offset ≤ r.seq) →
        (ρ.state k).rows jid key = (ρ.state n).rows jid key ∧
          ρ.count ReadAct.reads n k ≤ (ρ.state n).reader.left ((ρ.state n).rows jid key)) := by
  refine ⟨fun n hn => (ReadSys.ground_run hρ n hn).dense, fun hcalm => ?_⟩
  have htracks := ReadSys.tracks_run hρ hcalm
  refine ⟨fun n hn => ?_, fun n k hnk hk hbegun hends => ?_⟩
  · obtain ⟨hpre, hall⟩ := (htracks n hn).yields
    exact ⟨hpre, hall, ReadSys.raised_run hρ n hn, ReadSys.enabled limit jid key⟩
  · let good (s : ReadSys) : Prop :=
      s.Ending jid key offset ∧ s.rows jid key = (ρ.state n).rows jid key
    have hgood : good (ρ.state n) := ⟨(htracks n (hnk.trans hk)).ending hbegun hends, rfl⟩
    have hstep : ∀ j, n ≤ j → j < ρ.length → good (ρ.state j) → good (ρ.state (j + 1)) ∧
        (ρ.state (j + 1)).reader.left ((ρ.state (j + 1)).rows jid key) +
            (if ReadAct.reads (ρ.act j) then 1 else 0) ≤
          (ρ.state j).reader.left ((ρ.state j).rows jid key) := fun j _ hj hs => by
      obtain ⟨hending, hle⟩ := hs.1.step hlimit (hcalm j hj) (ρ.next j hj)
      exact ⟨⟨hending, (hs.1.rows_step (hcalm j hj) (ρ.next j hj)).trans hs.2⟩, hle⟩
    let left (s : ReadSys) : Nat := s.reader.left (s.rows jid key)
    obtain ⟨⟨-, hrows⟩, hcount⟩ := ρ.count_le (f := left) hgood hstep hnk hk
    exact ⟨hrows, (Nat.le_add_left _ _).trans hcount⟩

/-- The worker writes the first row, a reader of batches of two takes it and waits, the
other rows come with the marker, and the reader goes through two batches. -/
def tailedActs : List ReadAct :=
  let claim : List Act := [.enqueue (.plain "q")] ++ Act.claim 0 (.plain "q")
  claim.map .world ++
    [.world (.durable 0 (.streamAppend "log" (some (.int 10)) false)), .start, .fetch, .next, .next,
      .check, .world (.durable 0 (.streamAppend "log" (some (.int 20)) false)),
      .world (.durable 0 (.streamAppend "log" (some (.int 30)) false)),
      .world (.durable 0 (.streamAppend "log" none true)), .wake, .fetch, .next, .next, .next,
      .fetch, .next]

def tailedRun : Run (ReadSys.step 2 1 "log") :=
  .ofList ⟨.init .empty 0 fun _ => none, .new 0⟩ tailedActs (by decide)

theorem tailedActs_keep : ∀ a ∈ tailedActs, a.discards = false := by
  decide

theorem read_stream_exact_tailed :
    (tailedRun.state 20).reader.yielded = [some (.int 10), some (.int 20), some (.int 30)] ∧
      (tailedRun.state 20).reader.yielded =
        ((tailedRun.state 20).world.db.getStream 1 "log").values ∧
      tailedRun.count ReadAct.reads 13 20 ≤ 23 := by
  obtain ⟨hreads, hends⟩ :=
    (read_stream_exact 2 (by decide) 1 "log" 0 tailedRun ⟨_, _, _, rfl, fun _ _ => .nil rfl⟩).2
      fun n hn => ReadSys.calm_of_keeps (tailedActs_keep _ (Run.ofList_act_mem hn))
  have hclosed : ∃ r ∈ (tailedRun.state 13).rows 1 "log", r.closed ∧ (0 : Int) ≤ r.seq :=
    ⟨_, .tail _ (.tail _ (.tail _ (.head _))), rfl, by decide⟩
  refine ⟨rfl, ((hreads 20 (by decide)).2.1 rfl).1, ?_⟩
  exact (hends 13 20 (by decide) (by decide) nofun (.inr hclosed)).2

/-- The job closes its stream at position 0, and a reader asks for what comes from
position 1 on. -/
def pastActs : List ReadAct :=
  let close : List Act :=
    [.enqueue (.plain "q")] ++ Act.claim 0 (.plain "q") ++
      [.durable 0 (.streamAppend "log" none true)]
  close.map .world ++ [.start, .fetch, .next, .check]

def pollActs : List ReadAct := [.wake, .fetch, .next, .check]

def pastStart : ReadSys := ⟨.init .empty 0 fun _ => none, .new 1⟩

theorem past_cycle : ∃ s, exec (ReadSys.step 2 1 "log") pastStart pastActs = some s ∧
    exec (ReadSys.step 2 1 "log") s pollActs = some s ∧ s.reader.phase ≠ .idle ∧
    ∃ r ∈ s.rows 1 "log", r.closed :=
  ⟨_, rfl, rfl, nofun, _, .head _, rfl⟩

/-- As long as the job is not terminal, such a reader goes on polling. -/
theorem read_stream_past_marker : ¬∃ bound : ReadSys → Nat,
    ∀ ρ : Run (ReadSys.step 2 1 "log"), ReadSys.Fresh 1 ρ →
      (∀ n < ρ.length, (ρ.state n).Calm 1 (ρ.act n)) →
      ∀ n ≤ ρ.length, (ρ.state n).reader.phase ≠ .idle →
        (∃ r ∈ (ρ.state n).rows 1 "log", r.closed) →
        ρ.count ReadAct.reads n ρ.length ≤ bound (ρ.state n) := by
  rintro ⟨bound, hbound⟩
  obtain ⟨s, hs, hcycle, hbegun, hclosed⟩ := past_cycle
  let polls : List ReadAct := (List.replicate (bound s + 1) pollActs).flatten
  have hexec : exec (ReadSys.step 2 1 "log") pastStart (pastActs ++ polls) = some s := by
    rw [exec_append, hs, Option.bind_some, exec_cycle hcycle]
  let ρ : Run (ReadSys.step 2 1 "log") :=
    .ofList pastStart (pastActs ++ polls) (by rw [hexec]; rfl)
  have hstate : ρ.state pastActs.length = s := by
    show (exec (ReadSys.step 2 1 "log") pastStart
      ((pastActs ++ polls).take pastActs.length)).getD pastStart = s
    rw [List.take_left, hs]
    rfl
  have hkeeps : ∀ a ∈ pastActs ++ polls, a.discards = false := fun a ha => by
    rcases List.mem_append.mp ha with ha | ha
    · exact (by decide : ∀ a ∈ pastActs, a.discards = false) a ha
    · obtain ⟨l, hl, ha⟩ := List.mem_flatten.mp ha
      rw [List.eq_of_mem_replicate hl] at ha
      exact (by decide : ∀ a ∈ pollActs, a.discards = false) a ha
  have hcount : ρ.count ReadAct.reads pastActs.length ρ.length = (bound s + 1) * 4 := by
    show ρ.count _ _ (pastActs ++ polls).length = _
    rw [Run.ofList_count, List.drop_left, List.countP_flatten, List.map_replicate]
    simp [pollActs, List.countP_cons, ReadAct.reads]
  have hle := hbound ρ ⟨_, _, _, rfl, fun _ _ => .nil rfl⟩
    (fun n hn => ReadSys.calm_of_keeps (hkeeps _ (Run.ofList_act_mem hn))) pastActs.length
    (by simp [ρ, Run.ofList])
  rw [hstate, hcount] at hle
  have := hle hbegun hclosed
  omega

end Pyjobby
