import Pyjobby.Fencing
import Pyjobby.Tables

/-! The rows of a stream over any run: their sequences are 0 up to their number, nothing
follows a closing marker, and only a job that is in flight appends. -/

namespace Pyjobby

open Relational Transition

namespace Db

/-- The rows of a stream, in the order of their inserts. -/
def streamRows (db : Db) (jid : Nat) (key : String) : List StreamRow :=
  db.stream.rows.filter fun s => s.jobId = jid ∧ s.key = key

/-- The sequences of a stream are exactly 0 to n - 1, and only its last row can be the
closing marker. -/
structure Dense (db : Db) (jid : Nat) (key : String) : Prop where
  seqs : (db.streamRows jid key).map StreamRow.seq = List.range (db.streamRows jid key).length
  marker : ∀ r ∈ (db.streamRows jid key).dropLast, r.closed = false

theorem foldr_max_range {n b : Nat} (h : n ≤ b) :
    ((List.range n).map Nat.succ).foldr max b = b := by
  induction n generalizing b with
  | zero => rfl
  | succ n ih =>
    rw [List.range_succ, List.map_append, List.foldr_append]
    have hmax : max (n + 1) b = b := Nat.max_eq_right h
    simpa [hmax] using ih (Nat.le_of_succ_le h)

theorem nextStreamSeq_eq {db : Db} {jid : Nat} {key : String} (h : db.Dense jid key) :
    db.nextStreamSeq jid key = (db.streamRows jid key).length := by
  have hnext : db.nextStreamSeq jid key =
      (((db.streamRows jid key).map StreamRow.seq).map Nat.succ).foldr max 0 := by
    rw [List.map_map]
    rfl
  rw [hnext, h.seqs]
  cases (db.streamRows jid key).length with
  | zero => rfl
  | succ n =>
    rw [List.range_succ, List.map_append, List.foldr_append]
    exact foldr_max_range (Nat.le_succ n)

theorem Dense.nil {db : Db} {jid : Nat} {key : String} (h : db.streamRows jid key = []) :
    db.Dense jid key :=
  ⟨by simp [h], by simp [h]⟩

theorem Dense.congr {db db' : Db} {jid : Nat} {key : String}
    (heq : db'.streamRows jid key = db.streamRows jid key) (h : db.Dense jid key) :
    db'.Dense jid key :=
  ⟨heq ▸ h.seqs, heq ▸ h.marker⟩

/-- The rows with their positions. -/
theorem Dense.seq_eq {db : Db} {jid : Nat} {key : String} (h : db.Dense jid key) {i : Nat}
    {r : StreamRow} (hr : (db.streamRows jid key)[i]? = some r) : r.seq = i := by
  obtain ⟨hlt, -⟩ := List.getElem?_eq_some_iff.mp hr
  have hi : ((db.streamRows jid key).map StreamRow.seq)[i]? = some r.seq := by simp [hr]
  rw [h.seqs, List.getElem?_range hlt] at hi
  exact (Option.some.inj hi).symm

end Db

/-- What a step does to the rows of a stream. -/
inductive Streams (w : World) (a : Act) (jid : Nat) (key : String) (db : Db) : Prop where
  | kept (rows : db.streamRows jid key = w.db.streamRows jid key)
  | appended (new : StreamRow) (writer : ∃ r ∈ w.db.jorb, r.id = jid ∧ r.inFlight)
      (seq : new.seq = (w.db.streamRows jid key).length)
      (unclosed : ∀ r ∈ w.db.streamRows jid key, r.closed = false)
      (rows : db.streamRows jid key = w.db.streamRows jid key ++ [new])
  | cleared (act : (∃ batch, a = .delete batch ∧ jid ∈ batch) ∨
        ∃ allowed delay resetErrors, a = .rerunFresh jid allowed delay resetErrors)
      (rows : db.streamRows jid key = [])

theorem Streams.dense {w : World} {a : Act} {jid : Nat} {key : String} {db : Db}
    (h : Streams w a jid key db) (hd : w.db.Dense jid key) : db.Dense jid key := by
  cases h with
  | kept rows => exact hd.congr rows
  | appended new writer seq unclosed rows =>
    refine ⟨?_, fun r hr => ?_⟩
    · rw [rows, List.map_append, hd.seqs, List.length_append, List.map_singleton, seq,
        List.length_singleton, List.range_succ]
    · rw [rows, List.dropLast_concat] at hr
      exact unclosed r hr
  | cleared act rows => exact .nil rows

namespace World

variable {w w' : World} {a : Act}

theorem streamRows_delete {jid : Nat} {key : String} (ids : List Nat) :
    ((w.db.stream.delete fun s => s.jobId ∈ ids).rows.filter fun s => s.jobId = jid ∧ s.key = key) =
      if jid ∈ ids then [] else w.db.streamRows jid key := by
  simp only [Table.delete, List.filter_filter]
  split
  · rename_i hmem
    refine List.filter_eq_nil_iff.mpr fun s _ => ?_
    simp only [Bool.and_eq_true, decide_eq_true_eq, Bool.not_eq_true', decide_eq_false_iff_not]
    rintro ⟨⟨rfl, -⟩, hnot⟩
    exact hnot hmem
  · rename_i hmem
    refine List.filter_congr fun s _ => ?_
    by_cases hs : s.jobId = jid
    · simp [hs, hmem]
    · simp [hs]

/-- `stream_append`, as the rows of any stream see it. -/
theorem streamAppend_streams {e : Jorb} {jid : Nat} {key key' : String} {value : Option Json}
    {closed : Bool} (ho : Owned w e) (hd : w.db.Dense jid key) :
    Streams w a jid key
      (w.db.streamAppend w.clock e.id key' value closed e.runEpoch).1 := by
  unfold Db.streamAppend
  split
  · exact .kept rfl
  · rename_i r hfence
    obtain ⟨hr, hid, hepoch⟩ := Db.fence_eq_some.mp hfence
    dsimp only
    split
    · exact .kept rfl
    · rename_i hopen
      by_cases hkey : e.id = jid ∧ key' = key
      · obtain ⟨rfl, rfl⟩ := hkey
        have hfree := w.db.find?_nextStreamSeq e.id key'
        refine .appended
          { jobId := e.id, key := key', seq := w.db.nextStreamSeq e.id key', value, closed,
            runEpoch := e.runEpoch, created := w.clock }
          ⟨r, hr, hid, ho.flight r hr (Jorb.heldBy_iff.mpr ⟨hid.symm, hepoch.symm⟩)⟩
          (Db.nextStreamSeq_eq hd) (fun s hs => ?_) ?_
        · obtain ⟨hs, hkey⟩ := List.mem_filter.mp hs
          simp only [Bool.not_eq_true, List.any_eq_false] at hopen
          simpa [of_decide_eq_true hkey] using hopen s hs
        · simp only [Db.streamRows]
          rw [Table.rows_upsert_of_none hfree, List.filter_append]
          simp
      · refine .kept ?_
        have hother : (e.id = jid ∧ key' = key) = False := eq_false hkey
        simp only [Db.streamRows, Table.upsert]
        split
        · simp [Table.update]
        · simp [List.filter_append, hother]

theorem step_streams {jid : Nat} {key : String} (hf : Fenced w) (hd : w.db.Dense jid key)
    (h : w.step a = some w') : Streams w a jid key w'.db := by
  cases step_tables h with
  | kept step stream mailbox => exact .kept (by simp only [Db.streamRows, stream])
  | @durable i e stmt act exec eq =>
    rw [eq]
    cases stmt with
    | streamAppend key' value closed =>
      exact streamAppend_streams (hf.owned e (List.mem_of_getElem? exec)) hd
    | recordStep =>
      simp only [DurableStmt.run, Db.recordStep]
      split <;> exact .kept rfl
    | setEvent =>
      simp only [DurableStmt.run, Db.setEvent]
      split <;> exact .kept rfl
    | send =>
      simp only [DurableStmt.run, Db.send]
      split <;> exact .kept rfl
    | recv =>
      simp only [DurableStmt.run, Db.recv]
      repeat' split
      all_goals exact .kept rfl
  | delete batch act eq =>
    have hrows :
        w'.db.streamRows jid key = if jid ∈ batch then [] else w.db.streamRows jid key := by
      rw [eq]
      exact streamRows_delete batch
    by_cases hmem : jid ∈ batch
    · exact .cleared (.inl ⟨batch, act, hmem⟩) (by rw [hrows, if_pos hmem])
    · exact .kept (by rw [hrows, if_neg hmem])
  | @wipe j allowed delay resetErrors act step stream mailbox =>
    have hrows : w'.db.streamRows jid key = if jid ∈ [j] then [] else w.db.streamRows jid key := by
      rw [Db.streamRows, stream]
      exact streamRows_delete [j]
    by_cases hmem : jid ∈ [j]
    · obtain rfl := List.mem_singleton.mp hmem
      exact .cleared (.inr ⟨allowed, delay, resetErrors, act⟩) (by rw [hrows, if_pos hmem])
    · exact .kept (by rw [hrows, if_neg hmem])
  | compact act tx step stream mailbox => exact .kept (by simp only [Db.streamRows, stream])

end World

end Pyjobby
