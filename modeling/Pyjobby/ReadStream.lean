import Mathlib.Data.List.Infix
import Mathlib.Data.List.Sort
import Mathlib.Data.List.TakeWhile
import Pyjobby.Streams

/-! `read_stream`: a reader that takes a stream in batches while the job appends to it,
and decides on two reads, of the rows and of the job's state, where it ends. -/

namespace Pyjobby

open Relational Transition

namespace Db

/-- `_READ_STREAM_SQL`. -/
def readStream (db : Db) (jid : Nat) (key : String) (nextSeq : Int) (limit : Nat) :
    List StreamRow :=
  (((db.streamRows jid key).filter fun s => nextSeq ≤ s.seq).insertionSort
    fun s t => s.seq ≤ t.seq).take limit

structure StreamSnapshot where
  values : List (Option Json)
  closed : Bool

/-- `get_stream`: the values in order, up to the closing marker. -/
def getStream (db : Db) (jid : Nat) (key : String) : StreamSnapshot :=
  let rows := (db.streamRows jid key).insertionSort fun s t => s.seq ≤ t.seq
  { values := (rows.takeWhile fun s => !s.closed).map StreamRow.value
    closed := rows.any StreamRow.closed }

theorem filter_seq_eq_drop {rows : List StreamRow} {first n : Nat}
    (h : rows.map StreamRow.seq = List.range' first n) (nextSeq : Int) :
    (rows.filter fun s => nextSeq ≤ s.seq) = rows.drop (nextSeq.toNat - first) := by
  induction rows generalizing first n with
  | nil => simp
  | cons r rows ih =>
    cases n with
    | zero => simp at h
    | succ n =>
      simp only [List.map_cons, List.range'_succ, List.cons.injEq] at h
      have hrest := ih h.2
      by_cases hle : nextSeq.toNat ≤ first
      · have hkeep : nextSeq ≤ (r.seq : Int) := by omega
        rw [List.filter_cons_of_pos (by simpa using hkeep), hrest, Nat.sub_eq_zero_of_le hle,
          Nat.sub_eq_zero_of_le (by omega)]
        simp
      · have hskip : ¬nextSeq ≤ (r.seq : Int) := by omega
        rw [List.filter_cons_of_neg (by simpa using hskip), hrest]
        have hsub : nextSeq.toNat - first = nextSeq.toNat - (first + 1) + 1 := by omega
        rw [hsub, List.drop_succ_cons]

theorem Dense.sorted {db : Db} {jid : Nat} {key : String} (h : db.Dense jid key) :
    (db.streamRows jid key).Pairwise fun s t => s.seq ≤ t.seq := by
  have hlt : ((db.streamRows jid key).map StreamRow.seq).Pairwise (· < ·) :=
    h.seqs ▸ List.pairwise_lt_range
  exact (List.pairwise_map.mp hlt).imp Nat.le_of_lt

theorem readStream_eq {db : Db} {jid : Nat} {key : String} (h : db.Dense jid key) (nextSeq : Int)
    (limit : Nat) : db.readStream jid key nextSeq limit =
      ((db.streamRows jid key).drop nextSeq.toNat).take limit := by
  have hdrop := filter_seq_eq_drop (h.seqs.trans List.range_eq_range') nextSeq
  rw [Nat.sub_zero] at hdrop
  rw [readStream, hdrop, (h.sorted.sublist (List.drop_sublist _ _)).insertionSort_eq]

theorem getStream_values {db : Db} {jid : Nat} {key : String} (h : db.Dense jid key) :
    (db.getStream jid key).values =
      ((db.streamRows jid key).takeWhile fun s => !s.closed).map StreamRow.value := by
  simp only [getStream, h.sorted.insertionSort_eq]

def jobTerminal (db : Db) (jid : Nat) : Prop := ∃ r ∈ db.jorb, r.id = jid ∧ r.state.terminal

end Db

/-- Where a reader stands: `yielding` holds what is left of the batch, and whether the
batch was full. -/
inductive ReaderPhase where
  | idle
  | fetching
  | yielding (rows : List StreamRow) (full : Bool)
  | checking
  | waiting
  | returned
  | raised

structure Reader where
  nextSeq : Int
  final : Bool
  phase : ReaderPhase
  yielded : List (Option Json)

inductive ReadAct where
  | world (a : Act)
  | start
  | fetch
  | next
  | check
  | wake

instance : Inhabited ReadAct := ⟨.start⟩

def ReadAct.reads : ReadAct → Bool
  | world _ => false
  | _ => true

namespace Reader

def new (offset : Int) : Reader := ⟨offset, false, .idle, []⟩

/-- One statement of the loop, or one turn of the generator. `wake` is the notification
or the fallback poll. -/
def move (limit : Nat) (jid : Nat) (key : String) (db : Db) (r : Reader) : ReadAct → Option Reader
  | .world _ => none
  | .start =>
    match r.phase with
    | .idle => some { r with phase := .fetching }
    | _ => none
  | .fetch =>
    match r.phase with
    | .fetching =>
      let rows := db.readStream jid key r.nextSeq limit
      some { r with phase := .yielding rows (rows.length = limit) }
    | _ => none
  | .next =>
    match r.phase with
    | .yielding (row :: rows) full =>
      if row.closed then some { r with phase := .returned }
      else
        some
          { r with
            nextSeq := row.seq + 1, phase := .yielding rows full,
            yielded := r.yielded ++ [row.value] }
    | .yielding [] full =>
      some { r with phase := if full then .fetching else if r.final then .returned else .checking }
    | _ => none
  | .check =>
    match r.phase with
    | .checking =>
      match db.jorb.find? jid with
      | none => some { r with phase := .raised }
      | some job =>
        if job.state.terminal then some { r with final := true, phase := .fetching }
        else some { r with phase := .waiting }
    | _ => none
  | .wake =>
    match r.phase with
    | .waiting => some { r with phase := .fetching }
    | _ => none

end Reader

structure ReadSys where
  world : World
  reader : Reader

def ReadSys.step (limit : Nat) (jid : Nat) (key : String) (s : ReadSys) :
    ReadAct → Option ReadSys
  | .world a => (s.world.step a).map fun world => { s with world }
  | a => (s.reader.move limit jid key s.world.db a).map fun reader => { s with reader }

/-- The terminal job is requeued, its state is wiped, or retention removes it. -/
def World.resets (w : World) (jid : Nat) : Act → Bool
  | .delete batch => jid ∈ batch
  | .rerunFresh j _ _ _ => j = jid
  | .supervise (.requeue batch allowed delay resetErrors) =>
    w.db.jorb.rows.any fun r =>
      r.id = jid && r.state.terminal &&
        (SupervisorStmt.requeue batch allowed delay resetErrors).cond w.clock w.db r
  | _ => false

/-- Nothing of the sort happens while the reader is at work. -/
def ReadSys.Calm (jid : Nat) (s : ReadSys) : ReadAct → Prop
  | .world a => s.reader.phase = .idle ∨ s.world.resets jid a = false
  | _ => True

def ReadAct.discards : ReadAct → Bool
  | .world (.delete _) | .world (.rerunFresh ..) | .world (.supervise (.requeue ..)) => true
  | _ => false

theorem ReadSys.calm_of_keeps {jid : Nat} {s : ReadSys} {a : ReadAct} (h : a.discards = false) :
    s.Calm jid a := by
  cases a with
  | world act =>
    refine .inr ?_
    cases act with
    | delete | rerunFresh => cases h
    | supervise stmt =>
      cases stmt with
      | requeue => cases h
      | _ => rfl
    | _ => rfl
  | _ => trivial

theorem JorbState.terminal_iff {s : JorbState} :
    s.terminal ↔ s = .finished ∨ s = .crashed ∨ s = .cancelled := by
  cases s <;> decide

section Terminal

variable {w w' : World} {a : Act} {jid : Nat}

theorem Jorb.not_terminal_of_inFlight {r : Jorb} (h : r.inFlight) : ¬r.state.terminal := by
  rw [JorbState.terminal_iff]
  rcases Jorb.inFlight_iff.mp h with h | h <;> simp [h]

/-- An UPDATE other than a requeue leaves a terminal row terminal. -/
theorem Updates.terminal {u : Update} (hu : Updates w a u) (hcalm : w.resets jid a = false)
    {r : Jorb} (hr : r ∈ w.db.jorb) (hid : r.id = jid) (hterm : r.state.terminal)
    (hc : u.cond w.db r) : (u.set.set r).state.terminal := by
  have hflight : ¬r.inFlight := fun h => Jorb.not_terminal_of_inFlight h hterm
  have hwaiting : r.state ≠ .waiting := fun h => by simp [h, JorbState.terminal_iff] at hterm
  cases hu with
  | supervise s =>
    have hcond : s.cond w.clock w.db r := hc
    cases s with
    | requeue batch allowed delay resetErrors =>
      have hresets : w.resets jid (.supervise (.requeue batch allowed delay resetErrors)) :=
        List.any_eq_true.mpr ⟨r, hr, by simp [hid, hterm, hcond]⟩
      simp [hresets] at hcalm
    | cancel =>
      show (if r.preClaim then JorbState.cancelled else r.state).terminal
      split
      · rfl
      · exact hterm
    | updatePriority | updateAppVersion | setAwaited | bounce => exact hterm
    | sweepDeadWorkerJobs =>
      simp only [SupervisorStmt.cond, Bool.and_eq_true] at hcond
      exact absurd hcond.1.2 hflight
    | sweepStuckClaims =>
      simp only [SupervisorStmt.cond, Bool.and_eq_true, decide_eq_true_eq] at hcond
      exact absurd (Jorb.inFlight_iff.mpr (.inl hcond.1.2)) hflight
    | retryTimedOut | deadletterTimedOut =>
      simp only [SupervisorStmt.cond, Bool.and_eq_true, decide_eq_true_eq] at hcond
      exact absurd (Jorb.inFlight_iff.mpr (.inr hcond.2)) hflight
    | wakeWaiters =>
      simp only [SupervisorStmt.cond, Bool.and_eq_true] at hcond
      exact absurd (Jorb.stranded_released hcond.2).1 hwaiting
    | cancelUnsatisfiableWaiters => rfl
  | rerunFresh j allowed delay resetErrors =>
    have hcond : (SupervisorStmt.requeue [j] allowed delay resetErrors).cond w.clock w.db r := hc
    simp only [SupervisorStmt.cond, Bool.and_eq_true, decide_eq_true_eq,
      List.mem_singleton] at hcond
    simp only [World.resets, decide_eq_false_iff_not] at hcalm
    exact absurd (hcond.1.symm.trans hid) hcalm
  | worker exec s => exact absurd (Jorb.attemptOf_iff.mp hc).2.1 hflight
  | wakeSelf owed =>
    simp only [enqueueNextSelfFinished, Bool.and_eq_true, decide_eq_true_eq] at hc
    exact absurd hc.1.1.2 hwaiting
  | wakeGroup owed group =>
    simp only [enqueueNextIfPeerGroupIsFinished, Bool.and_eq_true, decide_eq_true_eq] at hc
    exact absurd hc.1.1.2 hwaiting

theorem World.terminal_stays (hw : Locks w) (h : w.step a = some w')
    (hcalm : w.resets jid a = false) (hterm : w.db.jobTerminal jid) : w'.db.jobTerminal jid := by
  obtain ⟨r, hr, hid, hterm⟩ := hterm
  cases World.step_effect h with
  | quiet db clock queue jorb => exact ⟨r, jorb ▸ hr, hid, hterm⟩
  | close session jorb => exact ⟨r, jorb ▸ hr, hid, hterm⟩
  | opens => exact ⟨r, hr, hid, hterm⟩
  | insert j => exact ⟨r, Serial.mem_insert_of_mem (h := fun _ => rfl) hr, hid, hterm⟩
  | update db wakes u jorb free source =>
    refine ⟨if u.cond w.db r then u.set.set r else r, ?_, ?_⟩
    · exact jorb ▸ Serial.mem_update.mpr ⟨r, hr, rfl⟩
    · by_cases hc : u.cond w.db r
      · simp only [hc, if_true]
        exact ⟨(u.set.key_set r).trans hid, source.terminal hcalm hr hid hterm hc⟩
      · simp only [hc]
        exact ⟨hid, hterm⟩
  | delete batch act =>
    subst act
    refine ⟨r, Serial.mem_delete.mpr ⟨hr, ?_⟩, hid, hterm⟩
    simpa [World.resets, hid] using hcalm
  | @commit session i c s _ _ act tx phase mem id jorb =>
    refine ⟨r, jorb ▸ Serial.mem_update.mpr ⟨r, hr, ?_⟩, hid, hterm⟩
    by_cases hri : r.id = i
    · have hqueued := ClaimArgs.admits_queued (hw.commit_admits tx phase hr hri)
      simp [hqueued, JorbState.terminal_iff] at hterm
    · simp [hri]

end Terminal

section Closing

variable {rows : List StreamRow}

theorem mem_dropLast_of_lt {p : Nat} {r : StreamRow} (hr : rows[p]? = some r)
    (hp : p + 1 < rows.length) : r ∈ rows.dropLast := by
  refine List.mem_of_getElem? (i := p) ?_
  rw [List.getElem?_dropLast, if_pos (by omega), hr]

theorem takeWhile_of_marker (hlast : ∀ r ∈ rows.dropLast, r.closed = false) {p : Nat}
    {r : StreamRow} (hr : rows[p]? = some r) (hclosed : r.closed) :
    (rows.takeWhile fun s => !s.closed) = rows.take p := by
  obtain ⟨hlt, hget⟩ := List.getElem?_eq_some_iff.mp hr
  have hp : rows.length = p + 1 := by
    by_contra hne
    have := hlast r (mem_dropLast_of_lt hr (by omega))
    simp [hclosed] at this
  have hsplit : rows = rows.take p ++ [r] := by
    rw [← hget, ← List.take_succ_eq_append_getElem hlt, ← hp, List.take_length]
  have hinit : ∀ s ∈ rows.take p, (!s.closed) = true := fun s hs => by
    rw [List.dropLast_eq_take, hp] at hlast
    simp [hlast s hs]
  conv_lhs => rw [hsplit]
  rw [List.takeWhile_append_of_pos hinit]
  simp [hclosed]

theorem drop_of_seen (hlast : ∀ r ∈ rows.dropLast, r.closed = false) {off : Nat}
    (hseen : ∀ r ∈ rows.drop off, r.closed = false) :
    (rows.takeWhile fun s => !s.closed).drop off = rows.drop off := by
  by_cases hall : ∀ r ∈ rows, r.closed = false
  · rw [List.takeWhile_eq_self_iff.mpr fun r hr => by simp [hall r hr]]
  · -- the marker is before the offset, and everything else with it
    push Not at hall
    obtain ⟨r, hr, hclosed⟩ := hall
    obtain ⟨p, hp⟩ := List.getElem?_of_mem hr
    have hlt : p < off := by
      by_contra hle
      refine hclosed (hseen r (List.mem_of_getElem? (i := p - off) ?_))
      rw [List.getElem?_drop, Nat.add_sub_cancel' (Nat.not_lt.mp hle), hp]
    have hlen : rows.length ≤ off := by
      by_contra hle
      exact hclosed (hlast r (mem_dropLast_of_lt hp (by omega)))
    have htake := (List.takeWhile_prefix (l := rows) fun s => !s.closed).length_le
    rw [List.drop_eq_nil_of_le hlen, List.drop_eq_nil_of_le (htake.trans hlen)]

/-- What a reader at position `p` has seen is the beginning of what is to be read. -/
theorem take_drop_seen (hlast : ∀ r ∈ rows.dropLast, r.closed = false) {p off : Nat}
    (hseen : ∀ r ∈ (rows.take p).drop off, r.closed = false) :
    (rows.take p).drop off <+: (rows.takeWhile fun s => !s.closed).drop off := by
  by_cases hp : rows.length ≤ p
  · rw [List.take_of_length_le hp] at hseen ⊢
    exact drop_of_seen hlast hseen ▸ List.prefix_refl _
  · have hinit : ∀ s ∈ rows.take p, (!s.closed) = true := fun s hs => by
      obtain ⟨i, hi, rfl⟩ := List.mem_take_iff_getElem.mp hs
      have hlt : i < rows.length := by omega
      have hrow : rows[i]? = some rows[i] := List.getElem?_eq_getElem hlt
      simp [hlast _ (mem_dropLast_of_lt hrow (by omega))]
    have hsplit : (rows.takeWhile fun s => !s.closed) =
        rows.take p ++ (rows.drop p).takeWhile fun s => !s.closed := by
      conv_lhs => rw [← List.take_append_drop p rows]
      exact List.takeWhile_append_of_pos hinit
    rw [hsplit]
    exact List.IsPrefix.drop (List.prefix_append _ _) off

end Closing

/-- The reader has yielded the rows from the offset up to where it stands, each once and
in order, and none of them was the marker. A batch is what comes next; it is all there is
if it was not full and the job had ended before it was read. -/
structure Reading (offset : Int) (rows : List StreamRow) (r : Reader) : Prop where
  start : offset.toNat ≤ r.nextSeq.toNat
  within : r.nextSeq.toNat = offset.toNat ∨ r.nextSeq.toNat ≤ rows.length
  yielded : r.yielded =
    ((rows.take r.nextSeq.toNat).drop offset.toNat).map StreamRow.value
  unclosed : ∀ s ∈ (rows.take r.nextSeq.toNat).drop offset.toNat, s.closed = false
  idle : r.phase = .idle → r.nextSeq.toNat = offset.toNat ∧ r.final = false
  checking : r.phase = .checking → r.final = false
  batch : ∀ batch full, r.phase = .yielding batch full → batch <+: rows.drop r.nextSeq.toNat ∧
    (full = false → r.final → batch = rows.drop r.nextSeq.toNat)
  returned : r.phase = .returned →
    (∃ s, rows[r.nextSeq.toNat]? = some s ∧ s.closed) ∨
      rows.drop r.nextSeq.toNat = [] ∧ r.final

namespace Reading

variable {offset : Int} {rows : List StreamRow} {r r' : Reader}

theorem new (offset : Int) (rows : List StreamRow) : Reading offset rows (.new offset) where
  start := Nat.le_refl _
  within := .inl rfl
  yielded := by simp [Reader.new]
  unclosed s hs := by simp [Reader.new] at hs
  idle _ := ⟨rfl, rfl⟩
  checking _ := rfl
  batch _ _ h := by cases h
  returned h := by cases h

/-- The reader goes on without taking a row. -/
theorem moves (h : Reading offset rows r) {final : Bool} {phase : ReaderPhase}
    (hidle : phase ≠ .idle) (hchecking : phase = .checking → final = false)
    (hbatch : ∀ batch full, phase = .yielding batch full → batch <+: rows.drop r.nextSeq.toNat ∧
      (full = false → final → batch = rows.drop r.nextSeq.toNat))
    (hreturned : phase = .returned → (∃ s, rows[r.nextSeq.toNat]? = some s ∧ s.closed) ∨
      rows.drop r.nextSeq.toNat = [] ∧ final) :
    Reading offset rows { r with final, phase } :=
  ⟨h.start, h.within, h.yielded, h.unclosed, fun hp => absurd hp hidle, hchecking,
  hbatch, hreturned⟩

theorem seen_succ {off p : Nat} {row : StreamRow} (hle : off ≤ p) (hrow : rows[p]? = some row) :
    (rows.take (p + 1)).drop off = (rows.take p).drop off ++ [row] := by
  obtain ⟨hlt, rfl⟩ := List.getElem?_eq_some_iff.mp hrow
  rw [List.take_succ_eq_append_getElem hlt, List.drop_append_of_le_length]
  rw [List.length_take]
  omega

theorem seen_append {off p : Nat} (hp : p = off ∨ p ≤ rows.length) (new : StreamRow) :
    ((rows ++ [new]).take p).drop off = (rows.take p).drop off := by
  rcases hp with rfl | hle
  · simp
  · rw [List.take_append_of_le_length hle]

theorem head (h : Reading offset rows r) {row : StreamRow} {batch : List StreamRow} {full : Bool}
    (hphase : r.phase = .yielding (row :: batch) full) : rows[r.nextSeq.toNat]? = some row := by
  have hfirst := List.prefix_iff_getElem?.mp (h.batch _ _ hphase).1 0 (by simp)
  simpa using hfirst

theorem next (h : Reading offset rows r) {row : StreamRow} {batch : List StreamRow} {full : Bool}
    (hphase : r.phase = .yielding (row :: batch) full)
    (hseq : ∀ i (s : StreamRow), rows[i]? = some s → s.seq = i) :
    rows.drop r.nextSeq.toNat = row :: rows.drop (r.nextSeq.toNat + 1) ∧
      ((row.seq : Int) + 1).toNat = r.nextSeq.toNat + 1 := by
  have hrow := h.head hphase
  obtain ⟨hlt, hget⟩ := List.getElem?_eq_some_iff.mp hrow
  have := hseq _ row hrow
  exact ⟨by rw [List.drop_eq_getElem_cons hlt, hget], by omega⟩

theorem take_row (h : Reading offset rows r) {row : StreamRow} {batch : List StreamRow}
    {full : Bool} (hphase : r.phase = .yielding (row :: batch) full) (hopen : row.closed = false)
    (hseq : ∀ i (s : StreamRow), rows[i]? = some s → s.seq = i) :
    Reading offset rows
      { r with
        nextSeq := row.seq + 1, phase := .yielding batch full,
        yielded := r.yielded ++ [row.value] } := by
  obtain ⟨hpre, hall⟩ := h.batch _ _ hphase
  have hrow := h.head hphase
  obtain ⟨hdrop, hnext⟩ := h.next hphase hseq
  have hseen := seen_succ h.start hrow
  rw [hdrop] at hpre hall
  refine ⟨?_, .inr ?_, ?_, fun s hs => ?_, nofun, nofun, fun batch' full' heq => ?_, nofun⟩
  · exact hnext ▸ Nat.le_succ_of_le h.start
  · exact hnext ▸ (List.getElem?_eq_some_iff.mp hrow).1
  · rw [hnext, hseen, h.yielded, List.map_append, List.map_singleton]
  · rw [hnext, hseen, List.mem_append, List.mem_singleton] at hs
    rcases hs with hs | rfl
    · exact h.unclosed s hs
    · exact hopen
  · cases heq
    rw [hnext]
    exact ⟨(List.cons_prefix_cons.mp hpre).2, fun hf hfin => (List.cons.inj (hall hf hfin)).2⟩

theorem fetch (h : Reading offset rows r) (limit : Nat) :
    Reading offset rows
      { r with
        phase := .yielding ((rows.drop r.nextSeq.toNat).take limit)
          (((rows.drop r.nextSeq.toNat).take limit).length = limit) } := by
  refine h.moves nofun nofun (fun batch full heq => ?_) nofun
  cases heq
  refine ⟨List.take_prefix _ _, fun hfull _ => List.take_of_length_le ?_⟩
  simp only [List.length_take, decide_eq_false_iff_not] at hfull
  omega

theorem append (h : Reading offset rows r) (new : StreamRow) (hfinal : r.final = false)
    (hopen : ∀ s ∈ rows, s.closed = false) : Reading offset (rows ++ [new]) r := by
  have hseen := seen_append h.within new
  refine ⟨h.start, h.within.imp_right fun hle => ?_, hseen ▸ h.yielded, hseen ▸ h.unclosed, h.idle,
    h.checking, fun batch full heq => ⟨?_, fun _ hfin => ?_⟩, fun hret => ?_⟩
  · rw [List.length_append]
    omega
  · exact (h.batch batch full heq).1.trans (List.IsPrefix.drop (List.prefix_append _ _) _)
  · simp [hfinal] at hfin
  · rcases h.returned hret with ⟨s, hs, hclosed⟩ | ⟨-, hfin⟩
    · simp [hopen s (List.mem_of_getElem? hs)] at hclosed
    · simp [hfinal] at hfin

theorem clear (h : Reading offset rows r) (hidle : r.phase = .idle) : Reading offset [] r := by
  obtain ⟨hstart, hfinal⟩ := h.idle hidle
  have hyielded := h.yielded
  rw [hstart] at hyielded
  refine ⟨h.start, .inl hstart, by simpa using hyielded, by simp, h.idle, h.checking,
    fun batch full heq => ?_, fun hret => ?_⟩
  · simp [hidle] at heq
  · simp [hidle] at hret

end Reading

/-- What holds of the tables in every state. -/
structure Ground (w : World) : Prop where
  locks : Locks w
  fenced : Fenced w
  dense : ∀ j k, w.db.Dense j k

theorem Ground.step {w w' : World} {a : Act} (hw : Ground w) (h : w.step a = some w') :
    Ground w' where
  locks := hw.locks.step (World.step_effect h)
  fenced := hw.fenced.step hw.locks (World.step_effect h)
  dense j k := (World.step_streams hw.fenced (hw.dense j k) h).dense (hw.dense j k)

namespace ReadSys

variable {limit : Nat} {jid : Nat} {key : String} {offset : Int} {s s' : ReadSys} {a : ReadAct}

def rows (s : ReadSys) (jid : Nat) (key : String) : List StreamRow :=
  s.world.db.streamRows jid key

/-- What holds while the reader is at work. -/
structure Tracks (jid : Nat) (key : String) (offset : Int) (s : ReadSys) : Prop where
  ground : Ground s.world
  reading : Reading offset (s.rows jid key) s.reader
  final : s.reader.final → s.world.db.jobTerminal jid

theorem seq_eq (hs : Ground s.world) (i : Nat) (r : StreamRow) (h : (s.rows jid key)[i]? = some r) :
    r.seq = i :=
  (hs.dense jid key).seq_eq h

/-- No row is added to the stream of a terminal job. -/
theorem not_appended {w : World} (hterm : w.db.jobTerminal jid) :
    ¬∃ r ∈ w.db.jorb, r.id = jid ∧ r.inFlight := by
  rintro ⟨r, hr, hid, hflight⟩
  obtain ⟨t, ht, htid, hterm⟩ := hterm
  obtain rfl := Serial.eq_of_ident hr ht (hid.trans htid.symm)
  exact Jorb.not_terminal_of_inFlight hflight hterm

theorem resets_of_cleared {w : World} {act : Act}
    (h : (∃ batch, act = .delete batch ∧ jid ∈ batch) ∨
      ∃ allowed delay resetErrors, act = .rerunFresh jid allowed delay resetErrors) :
    w.resets jid act := by
  rcases h with ⟨batch, rfl, hmem⟩ | ⟨allowed, delay, resetErrors, rfl⟩
  · simpa [World.resets] using hmem
  · simp [World.resets]

theorem Tracks.world (hs : Tracks jid key offset s) {act : Act} {w' : World}
    (hcalm : s.Calm jid (.world act)) (h : s.world.step act = some w') :
    Tracks jid key offset { s with world := w' } := by
  refine ⟨hs.ground.step h, ?_, fun hfinal => ?_⟩
  · show Reading offset (w'.db.streamRows jid key) s.reader
    cases World.step_streams hs.ground.fenced (hs.ground.dense jid key) h with
    | kept rows => exact rows ▸ hs.reading
    | appended new writer seq unclosed rows =>
      have hfinal : s.reader.final = false :=
        Bool.eq_false_iff.mpr fun hf => not_appended (hs.final hf) writer
      have hreading := hs.reading.append new hfinal unclosed
      exact rows ▸ hreading
    | cleared act rows =>
      have hidle : s.reader.phase = .idle :=
        hcalm.resolve_right (by simp [resets_of_cleared act])
      exact rows ▸ hs.reading.clear hidle
  · have hidle : s.reader.phase ≠ .idle := fun hidle => by
      rw [(hs.reading.idle hidle).2] at hfinal
      cases hfinal
    exact World.terminal_stays hs.ground.locks h (hcalm.resolve_left hidle) (hs.final hfinal)

theorem Tracks.reader (hs : Tracks jid key offset s) {r' : Reader}
    (h : s.reader.move limit jid key s.world.db a = some r') :
    Tracks jid key offset { s with reader := r' } := by
  have hreading := hs.reading
  cases a with
  | world act => cases h
  | start =>
    simp only [Reader.move] at h
    split at h <;> cases h
    exact ⟨hs.ground, hreading.moves nofun nofun nofun nofun, hs.final⟩
  | fetch =>
    simp only [Reader.move] at h
    split at h <;> cases h
    refine ⟨hs.ground, ?_, hs.final⟩
    rw [Db.readStream_eq (hs.ground.dense jid key)]
    exact hreading.fetch limit
  | next =>
    simp only [Reader.move] at h
    split at h
    · rename_i row batch full hphase
      split at h
      · rename_i hclosed
        cases h
        exact ⟨hs.ground, hreading.moves nofun nofun nofun fun _ =>
          .inl ⟨row, hreading.head hphase, hclosed⟩, hs.final⟩
      · rename_i hopen
        cases h
        exact ⟨hs.ground, hreading.take_row hphase (by simpa using hopen) (seq_eq hs.ground),
          hs.final⟩
    · rename_i full hphase
      cases h
      have hbatch := (hreading.batch _ _ hphase).2
      refine ⟨hs.ground, hreading.moves ?_ ?_ ?_ ?_, hs.final⟩
      · split_ifs <;> nofun
      · split_ifs with hfull hfin
        · nofun
        · nofun
        · exact fun _ => by simpa using hfin
      · split_ifs <;> nofun
      · split_ifs with hfull hfin
        · nofun
        · exact fun _ => .inr ⟨(hbatch (by simpa using hfull) hfin).symm, hfin⟩
        · nofun
    · cases h
  | check =>
    simp only [Reader.move] at h
    split at h
    · split at h
      · cases h
        exact ⟨hs.ground, hreading.moves nofun nofun nofun nofun, hs.final⟩
      · rename_i job hjob
        obtain ⟨hmem, hid⟩ := Serial.find?_eq_some.mp hjob
        split at h
        · rename_i hterm
          cases h
          exact ⟨hs.ground, hreading.moves nofun nofun nofun nofun, fun _ =>
            ⟨job, hmem, hid, hterm⟩⟩
        · cases h
          exact ⟨hs.ground, hreading.moves nofun nofun nofun nofun, hs.final⟩
    · cases h
  | wake =>
    simp only [Reader.move] at h
    split at h <;> cases h
    exact ⟨hs.ground, hreading.moves nofun nofun nofun nofun, hs.final⟩

theorem step_cases (h : s.step limit jid key a = some s') :
    (∃ act w', a = .world act ∧ s.world.step act = some w' ∧ s' = { s with world := w' }) ∨
      a.reads ∧ ∃ r', s.reader.move limit jid key s.world.db a = some r' ∧
        s' = { s with reader := r' } := by
  cases a with
  | world act =>
    obtain ⟨w', hw', rfl⟩ := Option.map_eq_some_iff.mp h
    exact .inl ⟨act, w', rfl, hw', rfl⟩
  | _ =>
    obtain ⟨r', hr', rfl⟩ := Option.map_eq_some_iff.mp h
    exact .inr ⟨rfl, r', hr', rfl⟩

theorem Tracks.step (hs : Tracks jid key offset s) (hcalm : s.Calm jid a)
    (h : s.step limit jid key a = some s') : Tracks jid key offset s' := by
  rcases step_cases h with ⟨act, w', rfl, hw', rfl⟩ | ⟨-, r', hr', rfl⟩
  · exact hs.world hcalm hw'
  · exact hs.reader hr'

end ReadSys

end Pyjobby
