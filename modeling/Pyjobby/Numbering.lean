import Pyjobby.Script
import Mathlib.Data.List.Infix
import Mathlib.Order.Lattice
import Mathlib.Data.List.Lex

/-! What an attempt at the code does, as a list of marks: how far the functions under way
have come grows along it, so a call is found again by its number or by its site. -/

namespace Pyjobby

namespace Script

open Transition

variable {κ : Type} {code : Code κ}

def Mark.isCall : Mark κ → Bool
  | call => true
  | _ => false

def calls (ms : List (Mark κ)) : Nat := ms.countP Mark.isCall

theorem calls_append (ms ms' : List (Mark κ)) : calls (ms ++ ms') = calls ms + calls ms' :=
  List.countP_append

/-- A call that is not over. -/
structure Open (κ : Type) where
  seq : Nat
  name : String
  levels : List (List κ)

def openFrames : List (Frame κ) → List (Open κ)
  | [] => []
  | f :: fs => ⟨f.seq, f.name, f.passed :: fs.map Frame.passed⟩ :: openFrames fs

namespace Control

/-- The calls that are not over, the innermost first. -/
def opens (k : Control κ) : List (Open κ) :=
  match k.pos with
  | .called name _ _ => ⟨k.seq, name, k.levels⟩ :: openFrames k.frames
  | .code _ => openFrames k.frames

/-- How far the functions under way have come, the outermost first. -/
def path (k : Control κ) : List Nat := (k.levels.map List.length).reverse

def mark (code : Code κ) (k : Control κ) : Mark κ → Option (Control κ)
  | .call =>
    match k.pos with
    | .code c =>
      match code.head c with
      | .call name fn next => some (k.allocate name fn next)
      | _ => none
    | .called _ _ _ => none
  | .enter =>
    match k.pos with
    | .called name (some c) next => some (k.enter name c next)
    | _ => none
  | .done c' =>
    match k.pos, k.frames with
    | .called _ none _, _ => some (k.complete c')
    | .code c, f :: fs => (code.head c).result.map fun _ => k.pop f fs c'
    | _, _ => none
  | .cut c' =>
    match k.pos, k.frames with
    | .called _ _ _, _ => some (k.complete c')
    | .code _, f :: fs => some (k.pop f fs c')
    | .code _, [] => none

/-- Where the code goes on when the innermost call that is not over has this outcome. -/
def resume (k : Control κ) (o : Outcome) : Option κ :=
  match k.pos, k.frames with
  | .called _ _ next, _ => some (next o)
  | .code _, f :: _ => some (f.next o)
  | .code _, [] => none

def run (code : Code κ) (k : Control κ) (ms : List (Mark κ)) : Option (Control κ) :=
  ms.foldlM (mark code) k

variable {k k' : Control κ} {ms : List (Mark κ)} {m : Mark κ}

theorem run_concat : run code k (ms ++ [m]) = (run code k ms).bind fun k' => mark code k' m := by
  rw [run, List.foldlM_append]
  exact Option.bind_congr fun k' _ => by simp

theorem run_concat_eq_some : run code k (ms ++ [m]) = some k' ↔
    ∃ k₁, run code k ms = some k₁ ∧ mark code k₁ m = some k' := by
  rw [run_concat, Option.bind_eq_some_iff]

theorem run_isSome_of_prefix {ms' : List (Mark κ)} (h : ms <+: ms') (hs : (run code k ms').isSome) :
    (run code k ms).isSome := by
  obtain ⟨rest, rfl⟩ := h
  rw [run, List.foldlM_append] at hs
  exact Option.isSome_of_isSome_bind hs

theorem mark_call (h : mark code k .call = some k') :
    ∃ c name fn next, k.pos = .code c ∧ code.head c = .call name fn next ∧
      k' = k.allocate name fn next := by
  simp only [mark] at h
  split at h
  · rename_i c hpos
    split at h
    · rename_i name fn next hhead
      exact ⟨c, name, fn, next, hpos, hhead, (Option.some.inj h).symm⟩
    · cases h
  · cases h

theorem mark_enter (h : mark code k .enter = some k') :
    ∃ name c next, k.pos = .called name (some c) next ∧ k' = k.enter name c next := by
  simp only [mark] at h
  split at h
  · rename_i name c next hpos
    exact ⟨name, c, next, hpos, (Option.some.inj h).symm⟩
  · cases h

theorem mark_done {d : κ} (h : mark code k (.done d) = some k') :
    (∃ name next, k.pos = .called name none next ∧ k' = k.complete d) ∨
      ∃ c f fs r, k.pos = .code c ∧ k.frames = f :: fs ∧ (code.head c).result = some r ∧
        k' = k.pop f fs d := by
  simp only [mark] at h
  split at h
  · rename_i name next hpos
    exact .inl ⟨name, next, hpos, (Option.some.inj h).symm⟩
  · rename_i c f fs hpos hframes
    obtain ⟨r, hr, rfl⟩ := Option.map_eq_some_iff.mp h
    exact .inr ⟨c, f, fs, r, hpos, hframes, hr, rfl⟩
  · cases h

/-- A call that is over was made last, or its function was the innermost one. -/
theorem mark_over {d : κ} (h : mark code k (.done d) = some k' ∨ mark code k (.cut d) = some k') :
    (∃ name fn next, k.pos = .called name fn next ∧ k' = k.complete d) ∨
      ∃ c f fs, k.pos = .code c ∧ k.frames = f :: fs ∧ k' = k.pop f fs d := by
  rcases h with h | h
  · rcases mark_done h with ⟨name, next, hpos, hk⟩ | ⟨c, f, fs, r, hpos, hframes, -, hk⟩
    · exact .inl ⟨name, none, next, hpos, hk⟩
    · exact .inr ⟨c, f, fs, hpos, hframes, hk⟩
  · simp only [mark] at h
    split at h
    · rename_i name fn next hpos
      exact .inl ⟨name, fn, next, hpos, (Option.some.inj h).symm⟩
    · rename_i c f fs hpos hframes
      exact .inr ⟨c, f, fs, hpos, hframes, (Option.some.inj h).symm⟩
    · cases h

theorem mark_ended {d : Done κ} (h : mark code k d.mark = some k') :
    (∃ name fn next, k.pos = .called name fn next ∧ k' = k.complete d.code) ∨
      ∃ c f fs, k.pos = .code c ∧ k.frames = f :: fs ∧ k' = k.pop f fs d.code := by
  unfold Done.mark at h
  split at h
  · exact mark_over (.inl h)
  · exact mark_over (.inr h)

/-- The code decides what comes next, where it goes on aside. -/
theorem mark_same {m' : Mark κ} {k'' : Control κ} (h : mark code k m = some k')
    (h' : mark code k m' = some k'') (hm : ∀ d, m ≠ .cut d) (hm' : ∀ d, m' ≠ .cut d) :
    m = m' ∨ ∃ d d', m = .done d ∧ m' = .done d' := by
  have hcall : ∀ {m : Mark κ} {k₁ k₂ : Control κ}, mark code k .call = some k₁ →
      mark code k m = some k₂ → (∀ d, m ≠ .cut d) → m = .call := by
    intro m k₁ k₂ h h' hm
    obtain ⟨c, name, fn, next, hpos, hhead, -⟩ := mark_call h
    cases m with
    | call => rfl
    | enter =>
      obtain ⟨_, _, _, hpos', -⟩ := mark_enter h'
      simp [hpos] at hpos'
    | done d =>
      rcases mark_done h' with ⟨_, _, hpos', -⟩ | ⟨c', _, _, r, hpos', -, hr, -⟩
      · simp [hpos] at hpos'
      · obtain rfl := Pos.code.inj (hpos.symm.trans hpos')
        simp [hhead, Turn.result] at hr
    | cut d => exact absurd rfl (hm d)
  have henter : ∀ {d : κ} {k₁ k₂ : Control κ}, mark code k .enter = some k₁ →
      mark code k (.done d) = some k₂ → False := by
    intro d k₁ k₂ h h'
    obtain ⟨_, _, _, hpos, -⟩ := mark_enter h
    rcases mark_done h' with ⟨_, _, hpos', -⟩ | ⟨_, _, _, _, hpos', -⟩ <;> simp [hpos] at hpos'
  cases m with
  | call => exact .inl (hcall h h' hm').symm
  | enter =>
    cases m' with
    | call => exact .inl (hcall h' h hm)
    | enter => exact .inl rfl
    | done d => exact (henter h h').elim
    | cut d => exact absurd rfl (hm' d)
  | done d =>
    cases m' with
    | call => exact .inl (hcall h' h hm)
    | enter => exact (henter h' h).elim
    | done d' => exact .inr ⟨d, d', rfl, rfl⟩
    | cut d' => exact absurd rfl (hm' d')
  | cut d => exact absurd rfl (hm d)

/-- A call is opened, stays open or is closed. -/
theorem mark_opens (h : mark code k m = some k') :
    (∃ name fn next, m = .call ∧ k'.seq = k.seq + 1 ∧ k'.pos = .called name fn next ∧
      k'.levels = k.levels ∧ k'.opens = ⟨k.seq + 1, name, k.levels⟩ :: k.opens) ∨
    m = .enter ∧ k'.seq = k.seq ∧ k'.opens = k.opens ∨
    m.isCall = false ∧ k'.seq = k.seq ∧ ∃ x, k.opens = x :: k'.opens := by
  have hover : ∀ d, mark code k (.done d) = some k' ∨ mark code k (.cut d) = some k' →
      k'.seq = k.seq ∧ ∃ x, k.opens = x :: k'.opens := by
    intro d h
    rcases mark_over h with ⟨name, fn, next, hpos, rfl⟩ | ⟨c, f, fs, hpos, hframes, rfl⟩
    · exact ⟨rfl, ⟨k.seq, name, k.levels⟩, by simp [opens, complete, hpos]⟩
    · exact ⟨rfl, ⟨f.seq, f.name, f.passed :: fs.map Frame.passed⟩,
        by simp [opens, pop, hpos, hframes, openFrames]⟩
  cases m with
  | call =>
    obtain ⟨c, name, fn, next, hpos, -, rfl⟩ := mark_call h
    refine .inl ⟨name, fn, next, rfl, rfl, rfl, rfl, ?_⟩
    simp [opens, allocate, hpos, levels]
  | enter =>
    obtain ⟨name, c, next, hpos, rfl⟩ := mark_enter h
    exact .inr (.inl ⟨rfl, rfl, by simp [opens, enter, hpos, levels, openFrames]⟩)
  | done d => exact .inr (.inr ⟨rfl, hover d (.inl h)⟩)
  | cut d => exact .inr (.inr ⟨rfl, hover d (.inr h)⟩)

theorem mark_seq {d : Done κ} (h : mark code k d.mark = some k') : k'.seq = k.seq := by
  have hover : d.mark ≠ .call ∧ d.mark ≠ .enter := by
    unfold Done.mark
    split <;> simp
  rcases mark_opens h with ⟨-, -, -, hcall, -⟩ | ⟨henter, -⟩ | ⟨-, hseq, -⟩
  · exact absurd hcall hover.1
  · exact absurd henter hover.2
  · exact hseq

/-- Calls leave the path as it is, everything else takes it further. -/
theorem mark_path (h : mark code k m = some k') :
    if m.isCall then k'.path = k.path else k.path < k'.path := by
  have hover : ∀ d, mark code k (.done d) = some k' ∨ mark code k (.cut d) = some k' →
      k.path < k'.path := by
    intro d h
    have hlt : ∀ (l t : List Nat) (n : Nat), l ++ n :: t < l ++ [n + 1] := fun l t n =>
      List.append_left_lt (List.cons_lt_cons_iff.mpr (.inl (Nat.lt_succ_self n)))
    rcases mark_over h with ⟨name, fn, next, -, rfl⟩ | ⟨c, f, fs, -, hframes, rfl⟩
    · simpa [path, levels, complete] using hlt _ [] k.passed.length
    · simpa [path, levels, pop, hframes] using hlt _ [k.passed.length] f.passed.length
  cases m with
  | call =>
    obtain ⟨c, name, fn, next, -, -, rfl⟩ := mark_call h
    rfl
  | enter =>
    obtain ⟨name, c, next, -, rfl⟩ := mark_enter h
    have hpath : (k.enter name c next).path = k.path ++ [0] := by simp [path, levels, enter]
    have hlt : k.path ++ [] < k.path ++ [0] := List.append_left_lt (List.nil_lt_cons 0 [])
    rw [List.append_nil] at hlt
    simpa [Mark.isCall, hpath] using hlt
  | done d => exact hover d (.inl h)
  | cut d => exact hover d (.inr h)

theorem run_path (h : run code k ms = some k') : k.path ≤ k'.path := by
  induction ms using List.reverseRecOn generalizing k' with
  | nil =>
    obtain rfl := Option.some.inj h
    exact le_rfl
  | append_singleton ms m ih =>
    obtain ⟨k₁, hk₁, hm⟩ := run_concat_eq_some.mp h
    refine (ih hk₁).trans ?_
    have := mark_path hm
    split at this
    · exact this.ge
    · exact this.le

theorem run_append {ms' : List (Mark κ)} :
    run code k (ms ++ ms') = (run code k ms).bind fun k₁ => run code k₁ ms' :=
  List.foldlM_append

/-- Once a call is made, whatever follows takes the path further. -/
theorem run_path_called (hpos : ∀ c, k.pos ≠ .code c) (hne : ms ≠ [])
    (h : run code k ms = some k') : k.path < k'.path := by
  obtain ⟨m, ms, rfl⟩ := List.exists_cons_of_ne_nil hne
  rw [← List.singleton_append, run_append, Option.bind_eq_some_iff] at h
  obtain ⟨k₁, hm, hrest⟩ := h
  have hm : mark code k m = some k₁ := by simpa [run] using hm
  have hlt := mark_path hm
  cases m with
  | call =>
    obtain ⟨c, -, -, -, hcode, -⟩ := mark_call hm
    exact absurd hcode (hpos c)
  | enter => exact hlt.trans_le (run_path hrest)
  | done d => exact hlt.trans_le (run_path hrest)
  | cut d => exact hlt.trans_le (run_path hrest)

theorem run_seq {c : κ} (h : run code (start c) ms = some k) : k.seq = calls ms := by
  induction ms using List.reverseRecOn generalizing k with
  | nil =>
    obtain rfl := Option.some.inj h
    rfl
  | append_singleton ms m ih =>
    obtain ⟨k₁, hk₁, hm⟩ := run_concat_eq_some.mp h
    rw [calls_append, ← ih hk₁]
    rcases mark_opens hm with ⟨-, -, -, rfl, hseq, -⟩ | ⟨rfl, hseq, -⟩ | ⟨hcall, hseq, -⟩
    · rw [hseq]
      rfl
    · rw [hseq]
      rfl
    · rw [hseq]
      simp [calls, hcall]

/-- Of two calls the later one has the greater number, and is further. -/
theorem run_call_lt {c : κ} {pre pre' : List (Mark κ)} (hpos : ∀ c, k.pos ≠ .code c)
    (hne : pre ≠ pre') (hpre : pre ++ [.call] <+: pre' ++ [.call])
    (h : run code (start c) (pre ++ [.call]) = some k)
    (h' : run code (start c) (pre' ++ [.call]) = some k') : k.seq < k'.seq ∧ k.path < k'.path := by
  obtain ⟨rest, hrest⟩ := hpre
  obtain rfl | ⟨mid, m, rfl⟩ := List.eq_nil_or_concat rest
  · rw [List.append_nil] at hrest
    exact absurd (List.append_inj_left' hrest rfl) hne
  rw [List.concat_eq_append] at hrest
  obtain rfl : m = .call := by
    rw [← List.append_assoc] at hrest
    exact (List.cons.inj (List.append_inj_right' hrest rfl)).1
  constructor
  · have hmid : 0 < calls (mid ++ [.call]) := by simp [calls, Mark.isCall]
    rw [run_seq h, run_seq h', ← hrest, calls_append (pre ++ [Mark.call])]
    exact Nat.lt_add_of_pos_right hmid
  · rw [← hrest, run_append, h, Option.bind_some] at h'
    exact run_path_called hpos (by simp) h'

/-- Open calls have distinct numbers, already taken. -/
theorem run_opens {c : κ} (h : run code (start c) ms = some k) :
    (k.opens.map Open.seq).Pairwise (· > ·) ∧ ∀ x ∈ k.opens, x.seq ≤ k.seq := by
  induction ms using List.reverseRecOn generalizing k with
  | nil =>
    obtain rfl := Option.some.inj h
    simp [opens, start, openFrames]
  | append_singleton ms m ih =>
    obtain ⟨k₁, hk₁, hm⟩ := run_concat_eq_some.mp h
    obtain ⟨hsorted, hle⟩ := ih hk₁
    rcases mark_opens hm with ⟨name, -, -, -, hseq, -, -, hopens⟩ | ⟨-, hseq, hopens⟩ |
      ⟨-, hseq, x, hopens⟩
    · rw [hopens, hseq, List.map_cons, List.pairwise_cons, List.forall_mem_cons]
      refine ⟨⟨fun n hn => ?_, hsorted⟩, le_rfl, fun x hx => (hle x hx).trans (Nat.le_succ _)⟩
      obtain ⟨x, hx, rfl⟩ := List.mem_map.mp hn
      exact Nat.lt_succ_of_le (hle x hx)
    · rw [hopens, hseq]
      exact ⟨hsorted, hle⟩
    · rw [hopens, List.map_cons, List.pairwise_cons] at hsorted
      rw [hopens, List.forall_mem_cons] at hle
      rw [hseq]
      exact ⟨hsorted.2, hle.2⟩

theorem run_rest {c : κ} {x : Open κ} {xs : List (Open κ)} (h : run code (start c) ms = some k)
    (hx : k.opens = x :: xs) : x.seq ≤ k.seq ∧ ∀ y ∈ xs, x.seq ≠ y.seq := by
  obtain ⟨hsorted, hle⟩ := run_opens h
  rw [hx, List.map_cons, List.pairwise_cons] at hsorted
  exact ⟨hle x (by simp [hx]), fun y hy => (hsorted.1 _ (List.mem_map_of_mem hy)).ne'⟩

end Control

namespace Job

/-- The log after a call with this outcome is over. A success that the code is told of has
been written. -/
def Writes (s : Job κ) (x : Open κ) (o : Outcome) (log' : Log κ) : Prop :=
  log' = s.log ∧ (∃ e, o = .error e) ∨
    ∃ result, log' = s.log.write x.seq (.of x.name ⟨s.position, x.levels⟩ result) ∧
      ∀ v, o = .ok v → result = .ok v

/-- What a step can do. -/
inductive Move (code : Code κ) (s : Job κ) : Act → Job κ → Prop
  | start (ha : s.attempt = none) :
    Move code s .start { s with attempt := some (.new s.log (code.entry s.position)) }
  | call {a : Attempt κ} {c : κ} {name : String} {fn : Option κ} {next : Outcome → κ}
    (ha : s.attempt = some a) (hpos : a.control.pos = .code c)
    (hhead : code.head c = .call name fn next) : Move code s .call (s.call a name fn next)
  | enter {a : Attempt κ} {c : κ} {name : String} {next : Outcome → κ} (ha : s.attempt = some a)
    (hpos : a.control.pos = .called name (some c) next) :
    Move code s .enter
      { s with
        attempt := some
          { a with control := a.control.enter name c next, marks := a.marks ++ [.enter] } }
  | ended {act : Act} {a : Attempt κ} {x : Open κ} {d : Done κ} {k' : Control κ} {log' : Log κ}
    (ha : s.attempt = some a) (hm : Control.mark code a.control d.mark = some k')
    (hx : a.control.opens = x :: k'.opens) (hseq : d.seq = x.seq)
    (hcode : a.control.resume d.outcome = some d.code) (hlog : s.Writes x d.outcome log') :
    Move code s act { s with log := log', attempt := some (a.complete k' d) }
  | commit {a : Attempt κ} {c next : κ} {value : Json} {answered : Bool}
    (ha : s.attempt = some a) (hpos : a.control.pos = .code c)
    (hhead : code.head c = .commitPosition value next) :
    Move code s (.commit answered) (s.commit a value next answered)
  | leave {a : Attempt κ} (ha : s.attempt = some a) : Move code s .leave (s.leave a)

/-- A call finds the checkpoint of another, has to run, or is replayed. -/
theorem call_eq (s : Job κ) (a : Attempt κ) (name : String) (fn : Option κ) (next : Outcome → κ) :
    (∃ row, a.steps (a.control.seq + 1) = some row ∧ row.name ≠ name ∧
      s.call a name fn next =
        { (s.allocate (a.call name fn next) name).leave (a.call name fn next) with
          diverged := true }) ∨
    (∀ row, a.steps (a.control.seq + 1) = some row → row.error ≠ none) ∧
      s.call a name fn next =
        { s.allocate (a.call name fn next) name with attempt := some (a.call name fn next) } ∨
    ∃ row, a.steps (a.control.seq + 1) = some row ∧ row.name = name ∧ row.error = none ∧
      s.call a name fn next =
        { s.allocate (a.call name fn next) name with
          attempt := some ((a.call name fn next).complete
            ((a.call name fn next).control.complete (next (.ok row.output)))
            ⟨a.control.seq + 1, .ok row.output, next (.ok row.output), fn.isNone⟩) } := by
  unfold Job.call
  dsimp only
  split
  · rename_i hnone
    exact .inr (.inl ⟨fun row hrow => (by cases hnone.symm.trans hrow), rfl⟩)
  · rename_i row hrow
    split
    · rename_i hne
      exact .inl ⟨row, hrow, hne, rfl⟩
    · rename_i hname
      split
      · rename_i herror
        exact .inr (.inr ⟨row, hrow, not_ne_iff.mp hname, Option.isNone_iff_eq_none.mp herror, rfl⟩)
      · rename_i herror
        refine .inr (.inl ⟨fun row' hrow' h => herror ?_, rfl⟩)
        rw [Option.some.inj (hrow.symm.trans hrow'), h]
        rfl

theorem call_same (s : Job κ) (a : Attempt κ) (name : String) (fn : Option κ)
    (next : Outcome → κ) :
    (s.call a name fn next).log = s.log ∧ (s.call a name fn next).position = s.position := by
  rcases s.call_eq a name fn next with ⟨-, -, -, heq⟩ | ⟨-, heq⟩ | ⟨row, -, -, -, heq⟩
  all_goals
    rw [heq]
    exact ⟨rfl, rfl⟩

theorem opens_call {a : Attempt κ} {c : κ} (hpos : a.control.pos = .code c) (name : String)
    (fn : Option κ) (next : Outcome → κ) : (a.call name fn next).control.opens =
      ⟨a.control.seq + 1, name, a.control.levels⟩ :: a.control.opens := by
  simp [Attempt.call, Control.opens, Control.allocate, Control.levels, hpos]

variable {s s' : Job κ} {a : Attempt κ} {act : Act}

theorem Move.record {x : Open κ} {whole write : Bool} {result : Outcome} {lost : Option String}
    {next : Outcome → κ} {go : κ → Control κ} (ha : s.attempt = some a)
    (hnext : ∀ o, a.control.resume o = some (next o))
    (hgo : ∀ o, Control.mark code a.control (Done.mark ⟨x.seq, o, next o, whole⟩) =
      some (go (next o)))
    (hopens : ∀ c, a.control.opens = x :: (go c).opens)
    (hs : s.record a x.seq x.name x.levels whole result write lost next go = some s') :
    Move code s act s' := by
  unfold Job.record at hs
  split at hs
  · cases hs
  · rename_i hwrite
    obtain rfl := Option.some.inj hs
    refine .ended ha (hgo _) (hopens _) rfl (hnext _) ?_
    cases lost with
    | some e =>
      cases write with
      | false => exact .inl ⟨rfl, e, rfl⟩
      | true => exact .inr ⟨result, rfl, fun v hv => by cases hv⟩
    | none =>
      obtain rfl : write = true := by simpa using hwrite
      exact .inr ⟨result, rfl, fun v hv => hv⟩

theorem Move.pop {f : Frame κ} {fs : List (Frame κ)} {c : κ} {whole write : Bool} {result : Outcome}
    {lost : Option String} (ha : s.attempt = some a) (hpos : a.control.pos = .code c)
    (hframes : a.control.frames = f :: fs)
    (hwhole : whole → ∃ r, (code.head c).result = some r)
    (hs : s.record a f.seq f.name (f.passed :: fs.map Frame.passed) whole result write lost f.next
      (a.control.pop f fs) = some s') : Move code s act s' := by
  refine Move.record (x := ⟨f.seq, f.name, f.passed :: fs.map Frame.passed⟩) ha (fun o => ?_)
    (fun o => ?_) (fun c => ?_) hs
  · simp [Control.resume, hpos, hframes]
  · cases whole with
    | false => simp [Control.mark, Done.mark, hpos, hframes]
    | true =>
      obtain ⟨r, hr⟩ := hwhole rfl
      simp [Control.mark, Done.mark, hpos, hframes, hr]
  · simp [Control.opens, Control.pop, hpos, hframes, openFrames]

theorem step_start (hs : s.step code .start = some s') :
    s.attempt = none ∧
      s' = { s with attempt := some (.new s.log (code.entry s.position)) } := by
  simp only [Job.step] at hs
  split at hs
  · rename_i ha
    exact ⟨ha, (Option.some.inj hs).symm⟩
  · cases hs

theorem step_call (hs : s.step code .call = some s') :
    ∃ a c name fn next, s.attempt = some a ∧ a.control.pos = .code c ∧
      code.head c = .call name fn next ∧ s' = s.call a name fn next := by
  obtain ⟨a, ha, hs⟩ := Option.bind_eq_some_iff.mp hs
  split at hs
  · rename_i c hpos
    split at hs
    · rename_i name fn next hhead
      exact ⟨a, c, name, fn, next, ha, hpos, hhead, (Option.some.inj hs).symm⟩
    · cases hs
  · cases hs

theorem step_enter (hs : s.step code .enter = some s') :
    ∃ a name c next, s.attempt = some a ∧ a.control.pos = .called name (some c) next ∧
      s' =
        { s with
          attempt := some
            { a with control := a.control.enter name c next, marks := a.marks ++ [.enter] } } := by
  obtain ⟨a, ha, hs⟩ := Option.bind_eq_some_iff.mp hs
  split at hs
  · rename_i name c next hpos
    exact ⟨a, name, c, next, ha, hpos, (Option.some.inj hs).symm⟩
  · cases hs

theorem step_commit {answered : Bool} (hs : s.step code (.commit answered) = some s') :
    ∃ a c value next, s.attempt = some a ∧ a.control.pos = .code c ∧
      code.head c = .commitPosition value next ∧ s' = s.commit a value next answered := by
  obtain ⟨a, ha, hs⟩ := Option.bind_eq_some_iff.mp hs
  split at hs
  · rename_i c hpos
    split at hs
    · rename_i value next hhead
      exact ⟨a, c, value, next, ha, hpos, hhead, (Option.some.inj hs).symm⟩
    · cases hs
  · cases hs

theorem step_settle {result : Outcome} {write : Bool} {lost : Option String}
    (hs : s.step code (.settle result write lost) = some s') :
    ∃ a name next, s.attempt = some a ∧ a.control.pos = .called name none next ∧
      s.record a a.control.seq name a.control.levels true result write lost next
        a.control.complete = some s' := by
  obtain ⟨a, ha, hs⟩ := Option.bind_eq_some_iff.mp hs
  simp only [Job.settle] at hs
  split at hs
  · rename_i name next hpos
    exact ⟨a, name, next, ha, hpos, hs⟩
  · cases hs

theorem step_move (hs : s.step code act = some s') : Move code s act s' := by
  cases act with
  | start =>
    obtain ⟨ha, rfl⟩ := step_start hs
    exact .start ha
  | call =>
    obtain ⟨a, c, name, fn, next, ha, hpos, hhead, rfl⟩ := step_call hs
    exact .call ha hpos hhead
  | enter =>
    obtain ⟨a, name, c, next, ha, hpos, rfl⟩ := step_enter hs
    exact .enter ha hpos
  | settle result write lost =>
    obtain ⟨a, name, next, ha, hpos, hs⟩ := step_settle hs
    refine Move.record (x := ⟨a.control.seq, name, a.control.levels⟩) ha (fun o => ?_)
      (fun o => ?_) (fun c => ?_) hs
    · simp [Control.resume, hpos]
    · simp [Control.mark, Done.mark, hpos]
    · simp [Control.opens, Control.complete, hpos]
  | return_ write lost =>
    obtain ⟨a, ha, hs⟩ := Option.bind_eq_some_iff.mp hs
    simp only [Job.return_] at hs
    split at hs
    · rename_i c f fs hpos hframes
      obtain ⟨result, hresult, hs⟩ := Option.bind_eq_some_iff.mp hs
      exact Move.pop ha hpos hframes (fun _ => ⟨result, hresult⟩) hs
    · cases hs
  | interrupt error write lost =>
    obtain ⟨a, ha, hs⟩ := Option.bind_eq_some_iff.mp hs
    simp only [Job.interrupt] at hs
    split at hs
    · rename_i c f fs hpos hframes
      exact Move.pop ha hpos hframes (fun h => by cases h) hs
    · cases hs
  | commit answered =>
    obtain ⟨a, c, value, next, ha, hpos, hhead, rfl⟩ := step_commit hs
    exact .commit ha hpos hhead
  | leave =>
    obtain ⟨a, ha, hs⟩ := Option.map_eq_some_iff.mp hs
    exact hs ▸ .leave ha

end Job

/-- In the marks `H` of an attempt that starts at `c₀`, this call is made. -/
def CallAt (code : Code κ) (c₀ : κ) (H : List (Mark κ)) (x : Open κ) : Prop :=
  ∃ pre k fn next, pre ++ [.call] <+: H ∧ (Control.start c₀).run code (pre ++ [.call]) = some k ∧
    k.pos = .called x.name fn next ∧ k.seq = x.seq ∧ k.levels = x.levels

namespace CallAt

variable {c₀ : κ} {H H' : List (Mark κ)} {x y : Open κ}

theorem mono (h : CallAt code c₀ H x) (hpre : H <+: H') : CallAt code c₀ H' x := by
  obtain ⟨pre, k, fn, next, hmem, rest⟩ := h
  exact ⟨pre, k, fn, next, hmem.trans hpre, rest⟩

/-- Two calls of one list of marks are the same, or one is before the other. -/
theorem eq_or (hx : CallAt code c₀ H x) (hy : CallAt code c₀ H y) :
    x = y ∨ x.seq ≠ y.seq ∧ x.levels ≠ y.levels := by
  obtain ⟨pre, k, fn, next, hpre, hrun, hpos, hseq, hlevels⟩ := hx
  obtain ⟨pre', k', fn', next', hpre', hrun', hpos', hseq', hlevels'⟩ := hy
  have hpath : x.levels = y.levels → k.path = k'.path := fun h => by
    rw [Control.path, Control.path, hlevels, hlevels', h]
  rcases eq_or_ne pre pre' with rfl | hne
  · obtain rfl : k = k' := Option.some.inj (hrun.symm.trans hrun')
    obtain ⟨hname, -, -⟩ := Pos.called.inj (hpos.symm.trans hpos')
    obtain ⟨xs, xn, xl⟩ := x
    obtain ⟨ys, yn, yl⟩ := y
    simp only at hseq hseq' hlevels hlevels' hname
    exact .inl (by rw [← hseq, ← hseq', ← hlevels, ← hlevels', hname])
  · right
    rcases List.prefix_or_prefix_of_prefix hpre hpre' with h | h
    · obtain ⟨hlt, hltp⟩ := Control.run_call_lt (by simp [hpos]) hne h hrun hrun'
      exact ⟨hseq ▸ hseq' ▸ hlt.ne, fun h => hltp.ne (hpath h)⟩
    · obtain ⟨hlt, hltp⟩ := Control.run_call_lt (by simp [hpos']) hne.symm h hrun' hrun
      exact ⟨hseq ▸ hseq' ▸ hlt.ne', fun h => hltp.ne' (hpath h)⟩

end CallAt

end Script

end Pyjobby
