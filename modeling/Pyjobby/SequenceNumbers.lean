import Pyjobby.Numbering
import Mathlib.Data.List.Count
import Mathlib.Tactic.IntervalCases

/-! The numbers of the primitives over the attempts at a job. What each attempt since the
log began has done up to its last call is the beginning of one list of marks, so it takes
the numbers, and finds the checkpoints, of those before it. -/

namespace Pyjobby

namespace Script

open Transition

variable {κ : Type} {code : Code κ}

def Log.Holds (log : Log κ) (n : Nat) (output : Option Json) : Prop :=
  ∃ row, log n = some row ∧ row.error = none ∧ row.output = output

namespace Log

variable {log : Log κ} {n : Nat} {row : Checkpoint κ}

theorem write_self {r : Checkpoint κ} (h : log.write n row n = some r) :
    log n = some r ∨ r = row := by
  simp only [write, if_true] at h
  split at h
  · rename_i old hold
    split at h
    · exact .inl (hold.trans h)
    · exact .inr (Option.some.inj h).symm
  · exact .inr (Option.some.inj h).symm

theorem write_of_ne {m : Nat} (h : m ≠ n) : log.write n row m = log m := if_neg h

theorem write_holds (name : String) (site : Site κ) (output : Option Json) :
    (log.write n (.of name site (.ok output))).Holds n output := by
  refine ⟨.of name site (.ok output), ?_, rfl, rfl⟩
  simp only [write, if_true]
  cases log n with
  | none => rfl
  | some old => simp [Checkpoint.of]

end Log

/-- The innermost call is over with a success that is in the log, or from a failure the
code has gone on here. -/
def Kept (log : Log κ) (failed : List (Nat × κ)) (k : Control κ) (x : Open κ) (d : κ) : Prop :=
  (∃ output, log.Holds x.seq output ∧ k.resume (.ok output) = some d) ∨ (x.seq, d) ∈ failed

theorem Kept.mono {log log' : Log κ} {failed failed' : List (Nat × κ)} {k : Control κ} {x : Open κ}
    {d : κ} (h : Kept log failed k x d) (hlog : ∀ n v, log.Holds n v → log'.Holds n v)
    (hfailed : failed ⊆ failed') : Kept log' failed' k x d :=
  h.imp (fun ⟨output, hv, hd⟩ => ⟨output, hlog _ _ hv, hd⟩) fun h => hfailed h

/-- So it is for every call that is over in these marks. -/
def Backed (code : Code κ) (c₀ : κ) (ms : List (Mark κ)) (log : Log κ) (failed : List (Nat × κ)) :
    Prop :=
  ∀ pre d k x, pre ++ [.done d] <+: ms → (Control.start c₀).run code pre = some k →
    k.opens.head? = some x → Kept log failed k x d

namespace Backed

variable {c₀ : κ} {ms : List (Mark κ)} {log log' : Log κ} {failed failed' : List (Nat × κ)}

theorem nil : Backed code c₀ [] log failed := fun pre d k x hpre => by
  simp at hpre

theorem mono (h : Backed code c₀ ms log failed) (hlog : ∀ n v, log.Holds n v → log'.Holds n v)
    (hfailed : failed ⊆ failed') : Backed code c₀ ms log' failed' :=
  fun pre d k x hpre hrun hx => (h pre d k x hpre hrun hx).mono hlog hfailed

theorem concat {m : Mark κ} (h : Backed code c₀ ms log failed)
    (hm : ∀ d k x, m = .done d → (Control.start c₀).run code ms = some k →
      k.opens.head? = some x → Kept log failed k x d) : Backed code c₀ (ms ++ [m]) log failed := by
  intro pre d k x hpre hrun hx
  rcases List.prefix_concat_iff.mp hpre with heq | hpre
  · obtain ⟨rfl, hdone⟩ := List.append_inj' heq rfl
    exact hm d k x (List.cons.inj hdone).1.symm hrun hx
  · exact h pre d k x hpre hrun hx

end Backed

/-- The history agrees with what the marks `H` say about the calls. -/
structure Recorded (code : Code κ) (s : Job κ) (H : List (Mark κ)) : Prop where
  valid : ((Control.start (code.entry s.position)).run code H).isSome
  whole : ∀ d, .cut d ∉ H
  allocated : ∀ x ∈ s.allocations, x.site.position = s.position ∧
    CallAt code (code.entry s.position) H ⟨x.seq, x.name, x.site.levels⟩ ∧
      ∀ row, x.found = some row → row.name = x.name ∧ row.site = x.site
  logged : ∀ n row, s.log n = some row → row.site.position = s.position ∧
    CallAt code (code.entry s.position) H ⟨n, row.name, row.site.levels⟩
  same : s.diverged = false

/-- The attempt does the same as `H`, unless it strays. -/
structure Playing (code : Code κ) (s : Job κ) (H : List (Mark κ)) (a : Attempt κ) : Prop where
  run : (Control.start (code.entry s.position)).run code a.marks = some a.control
  ahead : ∀ n, a.control.seq < n → a.steps n = s.log n
  opened : ∀ x ∈ a.control.opens, CallAt code (code.entry s.position) H x
  ended : ∀ d ∈ a.done, d.seq ≤ a.control.seq ∧ ∀ x ∈ a.control.opens, d.seq ≠ x.seq
  wentOn : a.wentOn ⊆ failures a.done
  passed : Backed code (code.entry s.position) a.marks s.log (failures a.done)
  cut : ∀ c, .cut c ∈ a.marks → ∃ d ∈ a.done, d.whole = false
  way : s.Strays a ∨ a.marks <+: H ∨ H <+: a.marks ∧ calls a.marks = calls H

/-- No call that is not over has succeeded before. -/
def Unsaved (s : Job κ) (opens : List (Open κ)) : Prop := ∀ x ∈ opens, ∀ v, ¬s.log.Holds x.seq v

structure Numbered (code : Code κ) (s : Job κ) (H : List (Mark κ)) : Prop where
  recorded : Recorded code s H
  backed : Backed code (code.entry s.position) H s.log
    (s.survived ++ s.attempt.elim [] Attempt.wentOn)
  playing : ∀ a, s.attempt = some a → Playing code s H a ∧ Unsaved s a.control.opens

theorem mem_failures {done : List (Done κ)} {d : Done κ} {e : String} (hd : d ∈ done)
    (he : d.outcome = .error e) : (d.seq, d.code) ∈ failures done :=
  List.mem_filterMap.mpr ⟨d, hd, by rw [he]⟩

theorem of_mem_failures {done : List (Done κ)} {n : Nat} {c : κ} (h : (n, c) ∈ failures done) :
    ∃ d ∈ done, d.seq = n := by
  obtain ⟨d, hd, hdc⟩ := List.mem_filterMap.mp h
  split at hdc
  · exact ⟨d, hd, (Prod.mk.inj (Option.some.inj hdc)).1⟩
  · cases hdc

section Play

variable {s : Job κ} {H : List (Mark κ)} {a : Attempt κ}

/-- In `H` comes next what the attempt does next, where it goes on aside. -/
theorem Playing.next {m : Mark κ} {k' : Control κ} (hr : Recorded code s H)
    (hp : Playing code s H a) (hm : Control.mark code a.control m = some k')
    (hcut : ∀ d, m ≠ .cut d) (hpre : a.marks <+: H) :
    H = a.marks ∨ a.marks ++ [m] <+: H ∨ ∃ d d', m = .done d ∧ a.marks ++ [.done d'] <+: H := by
  obtain ⟨rest, rfl⟩ := hpre
  cases rest with
  | nil => exact .inl (List.append_nil _)
  | cons m' rest =>
    have hpre : a.marks ++ [m'] <+: a.marks ++ m' :: rest := ⟨rest, by simp⟩
    obtain ⟨k'', hk''⟩ := Option.isSome_iff_exists.mp (Control.run_isSome_of_prefix hpre hr.valid)
    obtain ⟨k, hk, hm'⟩ := Control.run_concat_eq_some.mp hk''
    obtain rfl : a.control = k := Option.some.inj (hp.run.symm.trans hk)
    have hcut' : ∀ d, m' ≠ .cut d := fun d hd => hr.whole d (by simp [hd])
    rcases Control.mark_same hm hm' hcut hcut' with rfl | ⟨d, d', rfl, rfl⟩
    · exact .inr (.inl hpre)
    · exact .inr (.inr ⟨d, d', rfl, hpre⟩)

/-- A call is over: unless the attempt strays now, it is as in `H`. -/
theorem Playing.way_complete {k' : Control κ} {d : Done κ} {x : Open κ} (hr : Recorded code s H)
    (hb : Backed code (code.entry s.position) H s.log (s.survived ++ a.wentOn))
    (hp : Playing code s H a) (hm : Control.mark code a.control d.mark = some k')
    (hx : a.control.opens = x :: k'.opens) (hseq : d.seq = x.seq)
    (hcode : a.control.resume d.outcome = some d.code)
    (hown : ∀ v, s.log.Holds x.seq v → d.outcome = .ok v) :
    s.Strays (a.complete k' d) ∨ a.marks ++ [d.mark] <+: H ∨
      H <+: a.marks ++ [d.mark] ∧ calls (a.marks ++ [d.mark]) = calls H := by
  have hlast : d ∈ (a.complete k' d).done := by simp [Attempt.complete]
  have hcalls : calls (a.marks ++ [d.mark]) = calls a.marks := by
    rw [calls_append]
    unfold Done.mark
    split <;> rfl
  rcases hp.way with ⟨d', hd', hstray⟩ | hpre | ⟨hpre, hcount⟩
  · exact .inl ⟨d', List.mem_append_left _ hd', hstray⟩
  · cases hw : d.whole with
    | false => exact .inl ⟨d, hlast, .inl hw⟩
    | true =>
      have hdone : d.mark = .done d.code := by simp [Done.mark, hw]
      rcases hp.next hr hm (by simp [hdone]) hpre with heq | hnext | ⟨c, c', hc, hnext⟩
      · subst heq
        exact .inr (.inr ⟨List.prefix_append _ _, hcalls⟩)
      · exact .inr (.inl hnext)
      · have hkept : Kept s.log (s.survived ++ a.wentOn) a.control x c' :=
          hb a.marks c' a.control x hnext hp.run (by rw [hx]; rfl)
        by_cases hsame : d.code = c'
        · exact .inr (.inl (by rwa [hdone, hsame]))
        · rcases hkept with ⟨v, hv, hc'⟩ | hfailed
          · rw [← hown v hv, hcode] at hc'
            exact absurd (Option.some.inj hc') hsame
          · rcases List.mem_append.mp hfailed with hsurvived | hwent
            · exact .inl ⟨d, hlast, .inr ⟨c', hseq ▸ hsurvived, hsame⟩⟩
            · obtain ⟨d', hd', hseq'⟩ := of_mem_failures (hp.wentOn hwent)
              exact absurd hseq' ((hp.ended d' hd').2 x (by simp [hx]))
  · exact .inr (.inr ⟨hpre.trans (List.prefix_append _ _), hcalls.trans hcount⟩)

theorem failures_append (done : List (Done κ)) (d : Done κ) :
    failures done ⊆ failures (done ++ [d]) := by
  simp [failures]

theorem Backed.complete {c₀ : κ} {log : Log κ} {d : Done κ} {x : Open κ}
    (h : Backed code c₀ a.marks log (failures (a.done ++ [d])))
    (hrun : (Control.start c₀).run code a.marks = some a.control)
    (hx : a.control.opens.head? = some x) (hseq : d.seq = x.seq)
    (hcode : a.control.resume d.outcome = some d.code)
    (hkept : ∀ v, d.outcome = .ok v → log.Holds x.seq v) :
    Backed code c₀ (a.marks ++ [d.mark]) log (failures (a.done ++ [d])) := by
  refine h.concat fun c k y hc hk hy => ?_
  obtain rfl : a.control = k := Option.some.inj (hrun.symm.trans hk)
  obtain rfl : x = y := Option.some.inj (hx.symm.trans hy)
  have hout : d.code = c := by
    unfold Done.mark at hc
    split at hc
    · exact Mark.done.inj hc
    · cases hc
  cases ho : d.outcome with
  | ok v => exact .inl ⟨v, hkept v ho, by rw [← ho, hcode, hout]⟩
  | error e =>
    rw [← hout, Kept, ← hseq]
    exact .inr (mem_failures (List.mem_append_right _ (List.mem_singleton_self d)) ho)

/-- A call is over, and its checkpoint may have been written. -/
theorem Playing.complete {log' : Log κ} {k' : Control κ} {d : Done κ} {x : Open κ}
    (hr : Recorded code s H)
    (hb : Backed code (code.entry s.position) H s.log (s.survived ++ a.wentOn))
    (hp : Playing code s H a) (hm : Control.mark code a.control d.mark = some k')
    (hx : a.control.opens = x :: k'.opens) (hseq : d.seq = x.seq)
    (hcode : a.control.resume d.outcome = some d.code) (hsaved : Unsaved s k'.opens)
    (hown : ∀ v, s.log.Holds x.seq v → d.outcome = .ok v)
    (hlog : ∀ n, n ≠ x.seq → log' n = s.log n)
    (hrow : ∀ row, log' x.seq = some row → s.log x.seq = some row ∨
      row.name = x.name ∧ row.site = ⟨s.position, x.levels⟩)
    (hkept : ∀ v, d.outcome = .ok v → log'.Holds x.seq v) :
    Numbered code { s with log := log', attempt := some (a.complete k' d) } H := by
  have hkeep : ∀ n v, s.log.Holds n v → log'.Holds n v := by
    intro n v hv
    rcases eq_or_ne n x.seq with rfl | hn
    · exact hkept v (hown v hv)
    · obtain ⟨row, hrow, hrest⟩ := hv
      exact ⟨row, (hlog n hn).trans hrow, hrest⟩
  have hmem : x ∈ a.control.opens := by simp [hx]
  have hsub : ∀ y ∈ k'.opens, y ∈ a.control.opens := fun y hy => by simp [hx, hy]
  obtain ⟨hle, hne⟩ := Control.run_rest hp.run hx
  have hkseq := Control.mark_seq hm
  have hway := hp.way_complete hr hb hm hx hseq hcode hown
  refine ⟨⟨hr.valid, hr.whole, hr.allocated, ?_, hr.same⟩, hb.mono hkeep (fun _ h => h), ?_⟩
  · intro n row hn
    rcases eq_or_ne n x.seq with rfl | hne
    · rcases hrow row hn with hold | ⟨hname, hsite⟩
      · exact hr.logged x.seq row hold
      · rw [hname, hsite]
        exact ⟨rfl, hp.opened x hmem⟩
    · exact hr.logged n row ((hlog n hne).symm.trans hn)
  rintro a' ⟨⟩
  refine ⟨⟨?_, ?_, fun y hy => hp.opened y (hsub y hy), ?_, ?_, ?_, ?_, ?_⟩, ?_⟩
  · exact Control.run_concat_eq_some.mpr ⟨a.control, hp.run, hm⟩
  · intro n hn
    have hlt : a.control.seq < n := hkseq ▸ hn
    exact (hp.ahead n hlt).trans (hlog n (hle.trans_lt hlt).ne').symm
  · intro d' hd'
    rcases List.mem_append.mp hd' with hold | hnew
    · exact ⟨hkseq ▸ (hp.ended d' hold).1, fun y hy => (hp.ended d' hold).2 y (hsub y hy)⟩
    · obtain rfl := List.mem_singleton.mp hnew
      exact ⟨hkseq ▸ hseq ▸ hle, fun y hy => hseq ▸ hne y hy⟩
  · exact fun f hf => failures_append _ _ (hp.wentOn hf)
  · exact (hp.passed.mono hkeep (failures_append _ d)).complete hp.run (by rw [hx]; rfl) hseq
      hcode hkept
  · intro c hc
    rcases List.mem_append.mp hc with hold | hnew
    · obtain ⟨d', hd', hw⟩ := hp.cut c hold
      exact ⟨d', List.mem_append_left _ hd', hw⟩
    · refine ⟨d, List.mem_append_right _ (List.mem_singleton_self d), ?_⟩
      cases hw : d.whole with
      | false => rfl
      | true => simp [Done.mark, hw] at hnew
  · exact hway
  · intro y hy v hv
    obtain ⟨row, hrow, hrest⟩ := hv
    exact hsaved y hy v ⟨row, (hlog _ (hne y hy).symm).symm.trans hrow, hrest⟩

theorem Recorded.extend {H' : List (Mark κ)} (hr : Recorded code s H) (hpre : H <+: H')
    (hvalid : ((Control.start (code.entry s.position)).run code H').isSome)
    (hwhole : ∀ d, Mark.cut d ∉ H') : Recorded code s H' where
  valid := hvalid
  whole := hwhole
  allocated x hx := ((hr.allocated x hx).imp_right (And.imp_left fun h => h.mono hpre))
  logged n row hn := ((hr.logged n row hn).imp_right fun h => h.mono hpre)
  same := hr.same

/-- An attempt that has not strayed calls where those before it have called, or where none
of them has come. -/
theorem Playing.extend {k' : Control κ} (hr : Recorded code s H)
    (hb : Backed code (code.entry s.position) H s.log (s.survived ++ a.wentOn))
    (hp : Playing code s H a) (hstray : ¬s.Strays a)
    (hm : Control.mark code a.control .call = some k') :
    ∃ H', H <+: H' ∧ a.marks ++ [.call] <+: H' ∧ Recorded code s H' ∧
      Backed code (code.entry s.position) H' s.log (s.survived ++ failures a.done) := by
  have hold : Backed code (code.entry s.position) H s.log (s.survived ++ failures a.done) :=
    hb.mono (fun _ _ h => h) (List.append_subset.mpr ⟨List.subset_append_left _ _,
      List.subset_append_of_subset_right _ hp.wentOn⟩)
  have hnew : H <+: a.marks ++ [.call] → ∃ H', H <+: H' ∧ a.marks ++ [.call] <+: H' ∧
      Recorded code s H' ∧
        Backed code (code.entry s.position) H' s.log (s.survived ++ failures a.done) := by
    intro hpre
    refine ⟨a.marks ++ [.call], hpre, List.prefix_rfl, hr.extend hpre ?_ ?_, ?_⟩
    · rw [Control.run_concat_eq_some.mpr ⟨a.control, hp.run, hm⟩]
      rfl
    · intro c hc
      obtain ⟨d, hd, hw⟩ := hp.cut c (by simpa using hc)
      exact hstray ⟨d, hd, .inl hw⟩
    · exact (hp.passed.mono (fun _ _ h => h) (List.subset_append_right _ _)).concat
        fun d k x hd => by simp at hd
  rcases hp.way with h | hpre | ⟨hpre, -⟩
  · exact absurd h hstray
  · rcases hp.next hr hm (by simp) hpre with rfl | hnext | ⟨d, d', hd, -⟩
    · exact hnew (List.prefix_append _ _)
    · exact ⟨H, List.prefix_rfl, hnext, hr, hold⟩
    · simp at hd
  · exact hnew (hpre.trans (List.prefix_append _ _))

theorem Playing.of_eq {s' : Job κ} (hp : Playing code s H a) (hlog : s'.log = s.log)
    (hposition : s'.position = s.position) (hsurvived : s'.survived = s.survived) :
    Playing code s' H a where
  run := hposition ▸ hp.run
  ahead := hlog ▸ hp.ahead
  opened := hposition ▸ hp.opened
  ended := hp.ended
  wentOn := hp.wentOn
  passed := hposition ▸ hlog ▸ hp.passed
  cut := hp.cut
  way := by
    unfold Job.Strays
    rw [hsurvived]
    exact hp.way

section Call

variable {c : κ} {name : String} {fn : Option κ} {next : Outcome → κ}

theorem mark_allocate (hpos : a.control.pos = .code c) (hhead : code.head c = .call name fn next) :
    Control.mark code a.control .call = some (a.control.allocate name fn next) := by
  simp [Control.mark, hpos, hhead]

theorem Playing.call (hp : Playing code s H a) (hpre : a.marks ++ [.call] <+: H)
    (hpos : a.control.pos = .code c) (hhead : code.head c = .call name fn next) :
    CallAt code (code.entry s.position) H ⟨a.control.seq + 1, name, a.control.levels⟩ ∧
      Playing code s H (a.call name fn next) := by
  have hm := mark_allocate hpos hhead
  have hrun := Control.run_concat_eq_some.mpr ⟨a.control, hp.run, hm⟩
  have hcall : CallAt code (code.entry s.position) H ⟨a.control.seq + 1, name, a.control.levels⟩ :=
    ⟨a.marks, _, fn, next, hpre, hrun, rfl, rfl, rfl⟩
  have hopens := Job.opens_call hpos name fn next
  refine ⟨hcall, hrun, fun n hn => hp.ahead n (Nat.lt_of_succ_lt hn), ?_, ?_, fun f hf => hf,
    ?_, ?_, .inr (.inl hpre)⟩
  · rw [hopens]
    exact List.forall_mem_cons.mpr ⟨hcall, hp.opened⟩
  · intro d hd
    obtain ⟨hle, hne⟩ := hp.ended d hd
    rw [hopens]
    exact ⟨hle.trans (Nat.le_succ _), List.forall_mem_cons.mpr ⟨(Nat.lt_succ_of_le hle).ne, hne⟩⟩
  · exact hp.passed.concat fun d k x hd => by simp at hd
  · exact fun c hc => hp.cut c (by simpa [Attempt.call] using hc)

/-- The checkpoint found is the primitive's own. -/
theorem Recorded.own (hr : Recorded code s H) {x : Open κ} {row : Checkpoint κ}
    (hx : CallAt code (code.entry s.position) H x) (hrow : s.log x.seq = some row) :
    row.name = x.name ∧ row.site = ⟨s.position, x.levels⟩ := by
  obtain ⟨hposition, hcall⟩ := hr.logged x.seq row hrow
  rcases hcall.eq_or hx with heq | ⟨hne, -⟩
  · rw [← heq, ← hposition]
    exact ⟨rfl, rfl⟩
  · exact absurd rfl hne

theorem Recorded.allocate (hr : Recorded code s H)
    (hx : CallAt code (code.entry s.position) H ⟨a.control.seq, name, a.control.levels⟩)
    (hfound : a.steps a.control.seq = s.log a.control.seq) :
    Recorded code (s.allocate a name) H where
  valid := hr.valid
  whole := hr.whole
  logged := hr.logged
  same := hr.same
  allocated x hx' := by
    rcases List.mem_append.mp hx' with hold | hnew
    · exact hr.allocated x hold
    · obtain rfl := List.mem_singleton.mp hnew
      exact ⟨rfl, hx, fun row hrow => hr.own hx (hfound.symm.trans hrow)⟩

theorem Numbered.call (h : Numbered code s H) (ha : s.attempt = some a) (hstray : ¬s.Strays a)
    (hpos : a.control.pos = .code c) (hhead : code.head c = .call name fn next) :
    ∃ H', Numbered code (s.call a name fn next) H' := by
  obtain ⟨hr, hb, hplay⟩ := h
  obtain ⟨hp, hsaved⟩ := hplay a ha
  rw [ha] at hb
  obtain ⟨H', hH, hpre, hr', hb'⟩ := hp.extend hr hb hstray (mark_allocate hpos hhead)
  have hp' : Playing code s H' a :=
    { hp with
      opened := fun x hx => (hp.opened x hx).mono hH
      way := .inr (.inl ((List.prefix_append _ _).trans hpre)) }
  obtain ⟨hcall, hp₁⟩ := hp'.call hpre hpos hhead
  have hfound : a.steps (a.control.seq + 1) = s.log (a.control.seq + 1) :=
    hp.ahead _ (Nat.lt_succ_self _)
  have hr₁ : Recorded code (s.allocate (a.call name fn next) name) H' := hr'.allocate hcall hfound
  have hp₁ := @Playing.of_eq _ _ _ _ _ (s.allocate (a.call name fn next) name) hp₁ rfl rfl rfl
  have hopens := Job.opens_call hpos name fn next
  refine ⟨H', ?_⟩
  rcases Job.call_eq s a name fn next with ⟨row, hrow, hne, -⟩ | ⟨herror, heq⟩ |
    ⟨row, hrow, hname, herror, heq⟩
  · exact absurd (hr'.own hcall (hfound.symm.trans hrow)).1 hne
  · rw [heq]
    refine ⟨⟨hr₁.valid, hr₁.whole, hr₁.allocated, hr₁.logged, hr₁.same⟩, hb', ?_⟩
    rintro a' ⟨⟩
    refine ⟨hp₁.of_eq rfl rfl rfl, ?_⟩
    rw [hopens]
    refine List.forall_mem_cons.mpr ⟨?_, hsaved⟩
    rintro v ⟨row, hrow, hnone, -⟩
    exact herror row (hfound.trans hrow) hnone
  · have hrow : s.log (a.control.seq + 1) = some row := hfound.symm.trans hrow
    have hrest : ((a.call name fn next).control.complete (next (.ok row.output))).opens =
        a.control.opens := by
      simp [Attempt.call, Control.opens, Control.complete, Control.allocate, hpos]
    have hm : Control.mark code (a.call name fn next).control
        (Done.mark ⟨a.control.seq + 1, .ok row.output, next (.ok row.output), fn.isNone⟩) =
          some ((a.call name fn next).control.complete (next (.ok row.output))) := by
      cases fn <;> rfl
    rw [heq]
    refine hp₁.complete hr₁ hb' hm (hopens.trans (by rw [hrest])) rfl rfl ?_ ?_ (fun _ _ => rfl)
      (fun _ h => .inl h) ?_
    · rw [hrest]
      exact hsaved
    · rintro v ⟨row', hrow', -, rfl⟩
      rw [Option.some.inj (hrow.symm.trans hrow')]
    · rintro v hv
      exact ⟨row, hrow, herror, Except.ok.inj hv⟩

end Call

theorem Numbered.ended (h : Numbered code s H) (ha : s.attempt = some a) {x : Open κ} {d : Done κ}
    {k' : Control κ} {log' : Log κ} (hm : Control.mark code a.control d.mark = some k')
    (hx : a.control.opens = x :: k'.opens) (hseq : d.seq = x.seq)
    (hcode : a.control.resume d.outcome = some d.code) (hlog : s.Writes x d.outcome log') :
    Numbered code { s with log := log', attempt := some (a.complete k' d) } H := by
  obtain ⟨hr, hb, hplay⟩ := h
  obtain ⟨hp, hsaved⟩ := hplay a ha
  rw [ha] at hb
  have hmem : x ∈ a.control.opens := by simp [hx]
  refine hp.complete hr hb hm hx hseq hcode (fun y hy => hsaved y (by simp [hx, hy]))
    (fun v hv => absurd hv (hsaved x hmem v)) ?_ ?_ ?_
  · intro n hn
    rcases hlog with ⟨rfl, -⟩ | ⟨result, rfl, -⟩
    · rfl
    · exact Log.write_of_ne hn
  · intro row hrow
    rcases hlog with ⟨rfl, -⟩ | ⟨result, rfl, -⟩
    · exact .inl hrow
    · rcases Log.write_self hrow with hold | rfl
      · exact .inl hold
      · cases result <;> exact .inr ⟨rfl, rfl⟩
  · intro v hv
    rcases hlog with ⟨-, e, he⟩ | ⟨result, rfl, hresult⟩
    · cases hv.symm.trans he
    · rw [hresult v hv]
      exact Log.write_holds _ _ _

theorem Numbered.enter (h : Numbered code s H) (ha : s.attempt = some a) {name : String} {c : κ}
    {next : Outcome → κ} (hpos : a.control.pos = .called name (some c) next) : Numbered code
      { s with
        attempt := some
          { a with control := a.control.enter name c next, marks := a.marks ++ [.enter] } } H := by
  obtain ⟨hr, hb, hplay⟩ := h
  obtain ⟨hp, hsaved⟩ := hplay a ha
  rw [ha] at hb
  have hm : Control.mark code a.control .enter = some (a.control.enter name c next) := by
    simp [Control.mark, hpos]
  have hopens : (a.control.enter name c next).opens = a.control.opens := by
    simp [Control.opens, Control.enter, Control.levels, openFrames, hpos]
  have hcalls : calls (a.marks ++ [.enter]) = calls a.marks := calls_append _ _
  refine ⟨⟨hr.valid, hr.whole, hr.allocated, hr.logged, hr.same⟩, hb, ?_⟩
  rintro a' ⟨⟩
  refine ⟨⟨Control.run_concat_eq_some.mpr ⟨_, hp.run, hm⟩, hp.ahead, hopens ▸ hp.opened,
    hopens ▸ hp.ended, hp.wentOn, ?_, ?_, ?_⟩, hopens ▸ hsaved⟩
  · exact hp.passed.concat fun d k x hd => by simp at hd
  · exact fun c hc => hp.cut c (by simpa using hc)
  · rcases hp.way with hstray | hpre | ⟨hpre, hcount⟩
    · exact .inl hstray
    · rcases hp.next hr hm (by simp) hpre with rfl | hnext | ⟨d, d', hd, -⟩
      · exact .inr (.inr ⟨List.prefix_append _ _, hcalls⟩)
      · exact .inr (.inl hnext)
      · simp at hd
    · exact .inr (.inr ⟨hpre.trans (List.prefix_append _ _), hcalls.trans hcount⟩)

theorem Numbered.leave (h : Numbered code s H) (ha : s.attempt = some a) :
    Numbered code (s.leave a) H := by
  obtain ⟨hr, hb, -⟩ := h
  rw [ha] at hb
  refine ⟨⟨hr.valid, hr.whole, hr.allocated, hr.logged, hr.same⟩, ?_, fun a' ha' => by cases ha'⟩
  refine hb.mono (fun _ _ h => h) ?_
  simp [Job.leave]

theorem Numbered.start (h : Numbered code s H) (ha : s.attempt = none) : Numbered code
    { s with attempt := some (.new s.log (code.entry s.position)) } H := by
  obtain ⟨hr, hb, -⟩ := h
  rw [ha] at hb
  refine ⟨⟨hr.valid, hr.whole, hr.allocated, hr.logged, hr.same⟩, hb, ?_⟩
  rintro a' ⟨⟩
  refine ⟨⟨rfl, fun _ _ => rfl, ?_, ?_, ?_, .nil, ?_, .inr (.inl List.nil_prefix)⟩, ?_⟩ <;>
    simp [Attempt.new, Control.start, Control.opens, openFrames, Unsaved]

/-- With an empty log everything starts anew. -/
theorem Numbered.nil {s : Job κ} (hlog : ∀ n, s.log n = none) (hallocations : s.allocations = [])
    (hsame : s.diverged = false) (hattempt : ∀ a, s.attempt = some a →
      a = ⟨fun _ => none, .start (code.entry s.position), [], [], []⟩) : Numbered code s [] := by
  refine ⟨⟨rfl, by simp, by simp [hallocations], by simp [hlog], hsame⟩, .nil, fun a ha => ?_⟩
  obtain rfl := hattempt a ha
  refine ⟨⟨rfl, fun n _ => (hlog n).symm, ?_, ?_, ?_, .nil, ?_, .inr (.inl List.nil_prefix)⟩,
    ?_⟩ <;> simp [Control.start, Control.opens, openFrames, Unsaved]

theorem Numbered.commit (h : Numbered code s H) {value : Json} {next : κ} {answered : Bool}
    (hframes : a.control.frames = []) (hnext : next = code.entry (some value)) :
    Numbered code (s.commit a value next answered) [] := by
  refine .nil (fun _ => rfl) rfl h.recorded.same fun a' ha' => ?_
  cases answered with
  | false => cases ha'
  | true =>
    obtain rfl := Option.some.inj ha'
    simp [Control.start, Job.commit, hframes, hnext]

theorem Numbered.step {act : Act} {s' : Job κ} (h : ∃ H, Numbered code s H)
    (hact : s.Orderly code act) (hs : s.step code act = some s') : ∃ H, Numbered code s' H := by
  obtain ⟨H, h⟩ := h
  cases Job.step_move hs with
  | start ha => exact ⟨H, h.start ha⟩
  | call ha hpos hhead => exact h.call ha (hact _ ha) hpos hhead
  | enter ha hpos => exact ⟨H, h.enter ha hpos⟩
  | ended ha hm hx hseq hcode hlog => exact ⟨H, h.ended ha hm hx hseq hcode hlog⟩
  | commit ha hpos hhead =>
    obtain ⟨hframes, hnext⟩ := hact _ _ _ _ ha hpos hhead
    exact ⟨[], h.commit hframes hnext⟩
  | leave ha => exact ⟨H, h.leave ha⟩

theorem Numbered.stable (h : Numbered code s H) : s.Stable := by
  refine ⟨h.recorded.same, fun x hx => ⟨fun y hy => ?_, (h.recorded.allocated x hx).2.2⟩⟩
  obtain ⟨hxpos, hxcall, -⟩ := h.recorded.allocated x hx
  obtain ⟨hypos, hycall, -⟩ := h.recorded.allocated y hy
  rcases hxcall.eq_or hycall with heq | ⟨hseq, hlevels⟩
  · obtain ⟨hseq, -, hlevels⟩ := Open.mk.inj heq
    have hsite : x.site = y.site := by
      cases hxs : x.site
      cases hys : y.site
      simp_all
    exact iff_of_true hseq hsite
  · exact iff_of_false hseq fun hsite => hlevels (congrArg Site.levels hsite)

end Play

/-- While the attempts are orderly, every primitive keeps its number and finds its own
checkpoint. -/
theorem sequence_numbers_stable (code : Code κ) (ρ : Run (Job.step code))
    (hinit : ρ.state 0 = .init fun _ => none)
    (hact : ∀ n < ρ.length, (ρ.state n).Orderly code (ρ.act n)) :
    ∀ n ≤ ρ.length, (ρ.state n).Stable := by
  have hnumbered := ρ.invariant_of hact (P := fun s => ∃ H, Numbered code s H)
    ⟨[], hinit ▸ .nil (fun _ => rfl) rfl rfl fun a ha => by cases ha⟩ Numbered.step
  intro n hn
  obtain ⟨H, h⟩ := hnumbered n hn
  exact h.stable

/-- An order that is charged inside a step, and then confirmed. -/
def orderCode : Code Nat where
  entry _ := 0
  head c := [.call "order" (some 1) fun _ => 3, .call "charge" none fun _ => 2, .ret none,
    .call "confirm" none fun _ => 4].getD c (.ret none)

def orderActs : List Act :=
  [.start, .call, .enter, .call, .settle (.ok none) true none, .leave,
    .start, .call, .enter, .call, .return_ true none, .call]

def orderRun : Run (Job.step orderCode) := .ofList (.init fun _ => none) orderActs rfl

theorem sequence_numbers_stable_order : (orderRun.state 12).Stable := by
  refine sequence_numbers_stable orderCode orderRun rfl (fun n hn => ?_) 12 le_rfl
  have hn : n < 12 := hn
  interval_cases n
  case «1» | «3» | «7» | «9» =>
    rintro a ⟨⟩ ⟨d, hd, -⟩
    cases hd
  case «11» =>
    rintro a ⟨⟩ ⟨d, hd, hstray⟩
    rcases hd with _ | ⟨_, _ | ⟨_, ⟨⟩⟩⟩ <;> rcases hstray with ⟨⟨⟩⟩ | ⟨c, ⟨⟩, -⟩
  all_goals trivial

theorem sequence_numbers_stable_skipped : ¬∀ (code : Code Nat) (ρ : Run (Job.step code)),
    ρ.state 0 = .init (fun _ => none) → ∀ n ≤ ρ.length, (ρ.state n).Stable := by
  intro h
  have hsame := (h orderCode (.ofList (.init fun _ => none)
    (orderActs ++ [.leave, .start, .call, .call]) rfl) rfl 16 le_rfl).1
  cases hsame

end Script

end Pyjobby
