import Pyjobby.Dashboard
import Pyjobby.Schema
import Pyjobby.Lib.Text
import Mathlib.Data.Finset.Sort

/-! `_rearm_job_watches`: one beat over the watched jobs, with channel names that
any client may have chosen. -/

namespace Pyjobby

open Text (Digits)

def maxChannelNameLength : Nat := 255

def maxBigint : Nat := 2 ^ 63 - 1

/-- `int` refuses the rest of a channel's name. -/
inductive BeatError where
  | valueError (suffix : List Char)
  deriving DecidableEq

inductive BeatEvent where
  | statement (channel : String) (jobId : Nat)
  | jorbDone (ws : Nat) (channel : String) (jobId : Nat) (state : Option JorbState) (ok : Bool)
  deriving DecidableEq

/-- What the beat meets. Each channel is queried at most once and sent to each socket at
most once, and while it awaits the one or the other the other tasks may do anything. -/
structure BeatEnv where
  pool : Bool
  fetchval : String → Except String (Option JorbState)
  sends : String → Nat → Bool
  querying : String → Dashboard → Dashboard
  sending : String → Nat → Dashboard → Dashboard

structure Beat where
  dashboard : Dashboard
  events : List BeatEvent

/-- The name after the prefix. -/
def jobSuffix (channel : String) : Option (List Char) :=
  if jobChannelPrefix.toList.isPrefixOf channel.toList then
    some (channel.toList.drop jobChannelPrefix.toList.length)
  else none

/-- A turn of the loop that collects `watched`; `none` for a name it passes over. -/
def watchedJob (u : Digits) (channel : String) : Except BeatError (Option Nat) :=
  match jobSuffix channel with
  | none => .ok none
  | some suffix =>
    if u.isDigit suffix then
      match u.int suffix with
      | some jobId => .ok (some jobId)
      | none => .error (.valueError suffix)
    else .ok none

def watchedJobs (u : Digits) : List String → Except BeatError (List (String × Nat))
  | [] => .ok []
  | channel :: channels => do
    let found ← watchedJob u channel
    let rest ← watchedJobs u channels
    .ok ((found.map (channel, ·)).toList ++ rest)

namespace Beat

variable (env : BeatEnv)

/-- The loop of `broadcast_event`. A failing send is caught. -/
def sendAll (jobId : Nat) (state : Option JorbState) : List Nat → Broadcast → Beat →
    Broadcast × Beat
  | [], b, s => (b, s)
  | ws :: rest, b, s =>
    let ok := env.sends b.channel ws
    sendAll jobId state rest
      { b with todo := b.todo.erase ws, dead := if ok then b.dead else insert ws b.dead }
      { dashboard := (env.sending b.channel ws s.dashboard).sendTo b ws ok
        events := s.events ++ [.jorbDone ws b.channel jobId state ok] }

/-- `broadcast_event`, then the watches of the channel closed. A channel without a key
has nobody to deliver to. -/
def deliver (channel : String) (jobId : Nat) (state : Option JorbState) (s : Beat) : Beat :=
  match s.dashboard.subscriptions channel with
  | none => s
  | some set =>
    let id := (s.dashboard.broadcasts.rows.map Broadcast.id).sum + 1
    let todo := s.dashboard.sets channel set
    let (b, s) := sendAll env jobId state (todo.sort (· ≤ ·)) ⟨id, channel, .rearm, set, todo, ∅⟩
      { s with dashboard := s.dashboard.broadcastEvent id channel .rearm }
    { s with dashboard := s.dashboard.finish b }

/-- A turn of the loop over `watched`. A query that fails is caught, also the one that the
driver refuses for an argument outside the range of `bigint`. -/
def rearm (s : Beat) (watch : String × Nat) : Beat :=
  let (channel, jobId) := watch
  let dashboard := env.querying channel s.dashboard
  if maxBigint < jobId then { s with dashboard }
  else
    let s : Beat := ⟨dashboard, s.events ++ [.statement channel jobId]⟩
    match env.fetchval channel with
    | .error _ => s
    | .ok state => if state.all JorbState.terminal then s.deliver env channel jobId state else s

end Beat

/-- `_rearm_job_watches`, over the keys of `subscriptions`. -/
def rearmJobWatches (u : Digits) (env : BeatEnv) (keys : List String) (d : Dashboard) :
    Except BeatError Beat :=
  if env.pool then do
    let watched ← watchedJobs u keys
    .ok (watched.foldl (Beat.rearm env) ⟨d, []⟩)
  else .ok ⟨d, []⟩

/-- `channel` is `job:` and the decimal digits of `jobId`. -/
def IsWatch (u : Digits) (channel : String) (jobId : Nat) : Prop :=
  ∃ suffix, channel.toList = jobChannelPrefix.toList ++ suffix ∧ suffix ≠ [] ∧
    u.allDecimal suffix ∧ u.value suffix = jobId

/-- The other tasks leave `ws` subscribed to `channel`. -/
def BeatEnv.Leaves (env : BeatEnv) (channel : String) (ws : Nat) : Prop :=
  (∀ c d, ws ∈ d.subscribers channel → ws ∈ (env.querying c d).subscribers channel) ∧
    ∀ c ws' d, ws ∈ d.subscribers channel → ws ∈ (env.sending c ws' d).subscribers channel

/-- The beat returns; it has asked for every watched job, and told every subscriber of
one that has ended or is gone. -/
def BeatServes (u : Digits) (env : BeatEnv) (keys : List String) (d : Dashboard) : Prop :=
  ∃ s, rearmJobWatches u env keys d = .ok s ∧
    ∀ channel jobId, (d.subscriptions channel).isSome → IsWatch u channel jobId →
      jobId ≤ maxBigint →
        .statement channel jobId ∈ s.events ∧
          ∀ state, env.fetchval channel = .ok state → state.all JorbState.terminal →
            ∀ ws ∈ d.subscribers channel, env.Leaves channel ws →
              .jorbDone ws channel jobId state (env.sends channel ws) ∈ s.events

/-- `job:` and digits that are not all decimal. -/
def Misread (u : Digits) (channel : String) : Prop :=
  ∃ suffix, channel.toList = jobChannelPrefix.toList ++ suffix ∧ u.isDigit suffix ∧
    ¬u.allDecimal suffix

section Parsing

variable {u : Digits} {channel : String}

theorem jobSuffix_eq_some {suffix : List Char} :
    jobSuffix channel = some suffix ↔ channel.toList = jobChannelPrefix.toList ++ suffix := by
  unfold jobSuffix
  constructor
  · intro h
    split at h
    · rename_i hprefix
      obtain rfl := Option.some.inj h
      exact (List.prefix_iff_eq_append.mp (List.isPrefixOf_iff_prefix.mp hprefix)).symm
    · cases h
  · intro h
    have hprefix : jobChannelPrefix.toList.isPrefixOf channel.toList :=
      List.isPrefixOf_iff_prefix.mpr ⟨suffix, h.symm⟩
    rw [if_pos hprefix, h, List.drop_left]

theorem suffix_length_le (hbound : channel.length ≤ maxChannelNameLength) {suffix : List Char}
    (h : channel.toList = jobChannelPrefix.toList ++ suffix) :
    suffix.length ≤ Digits.maxStrDigits := by
  have hlength := congrArg List.length h
  rw [String.length_toList, List.length_append] at hlength
  unfold maxChannelNameLength at hbound
  unfold Digits.maxStrDigits
  omega

theorem watchedJob_isWatch (hbound : channel.length ≤ maxChannelNameLength) {jobId : Nat}
    (h : IsWatch u channel jobId) : watchedJob u channel = .ok (some jobId) := by
  obtain ⟨suffix, hsuffix, hne, hdec, rfl⟩ := h
  rw [watchedJob, jobSuffix_eq_some.mpr hsuffix]
  simp [Digits.isDigit_of_allDecimal hne hdec,
    Digits.int_eq hne hdec (suffix_length_le hbound hsuffix)]

theorem watchedJob_raises_iff (hbound : channel.length ≤ maxChannelNameLength) :
    (∃ e, watchedJob u channel = .error e) ↔ Misread u channel := by
  unfold watchedJob
  cases hs : jobSuffix channel with
  | none =>
    refine iff_of_false nofun ?_
    rintro ⟨suffix, hsuffix, -⟩
    rw [jobSuffix_eq_some.mpr hsuffix] at hs
    cases hs
  | some suffix =>
    have hsuffix := jobSuffix_eq_some.mp hs
    have hmisread : Misread u channel ↔ u.isDigit suffix ∧ ¬u.allDecimal suffix := by
      constructor
      · rintro ⟨suffix', hsuffix', h⟩
        rwa [List.append_cancel_left (hsuffix.symm.trans hsuffix')]
      · exact fun h => ⟨suffix, hsuffix, h⟩
    rw [hmisread]
    by_cases hdigit : u.isDigit suffix
    · have hne : suffix ≠ [] := by
        rintro rfl
        cases hdigit
      have hlen := suffix_length_le hbound hsuffix
      by_cases hdec : u.allDecimal suffix
      · simp [hdigit, hdec, Digits.int_eq hne hdec hlen]
      · simp [hdigit, hdec, Digits.int]
    · simp [hdigit]

theorem watchedJobs_ok_iff {keys : List String} :
    (∃ watched, watchedJobs u keys = .ok watched) ↔
      ∀ channel ∈ keys, ¬∃ e, watchedJob u channel = .error e := by
  induction keys with
  | nil => simp [watchedJobs]
  | cons channel keys ih =>
    rw [List.forall_mem_cons, ← ih]
    cases hone : watchedJob u channel with
    | error e => simp [watchedJobs, hone, bind, Except.bind]
    | ok found =>
      cases hrest : watchedJobs u keys <;> simp [watchedJobs, hone, hrest, bind, Except.bind]

theorem watchedJobs_cons {keys : List String} {watched : List (String × Nat)}
    (h : watchedJobs u (channel :: keys) = .ok watched) :
    ∃ found rest, watchedJob u channel = .ok found ∧ watchedJobs u keys = .ok rest ∧
      watched = (found.map (channel, ·)).toList ++ rest := by
  cases hfound : watchedJob u channel with
  | error e => simp [watchedJobs, hfound, bind, Except.bind] at h
  | ok found =>
    cases hrest : watchedJobs u keys with
    | error e => simp [watchedJobs, hfound, hrest, bind, Except.bind] at h
    | ok rest =>
      simp only [watchedJobs, hfound, hrest, bind, Except.bind, Except.ok.injEq] at h
      exact ⟨found, rest, rfl, rfl, h.symm⟩

theorem mem_watchedJobs {keys : List String} {watched : List (String × Nat)} {jobId : Nat}
    (h : watchedJobs u keys = .ok watched) :
    (channel, jobId) ∈ watched ↔ channel ∈ keys ∧ watchedJob u channel = .ok (some jobId) := by
  induction keys generalizing watched with
  | nil =>
    cases h
    simp
  | cons first keys ih =>
    obtain ⟨found, rest, hfound, hrest, rfl⟩ := watchedJobs_cons h
    have hfirst : (channel, jobId) ∈ (found.map (first, ·)).toList ↔
        channel = first ∧ watchedJob u channel = .ok (some jobId) := by
      cases found with
      | none =>
        refine iff_of_false (by simp) ?_
        rintro ⟨rfl, hsome⟩
        rw [hfound] at hsome
        cases hsome
      | some found =>
        constructor
        · rintro hmem
          obtain ⟨rfl, rfl⟩ := Prod.mk.inj (List.mem_singleton.mp hmem)
          exact ⟨rfl, hfound⟩
        · rintro ⟨rfl, hsome⟩
          rw [hfound] at hsome
          cases hsome
          exact List.mem_singleton_self _
    rw [List.mem_append, hfirst, ih hrest, List.mem_cons, or_and_right]

theorem IsWatch.jobChannel (jobId : Nat) : IsWatch u (jobChannel jobId) jobId := by
  obtain ⟨hdec, hvalue⟩ := Digits.value_toDigits (u := u) jobId
  refine ⟨Nat.toDigits 10 jobId, ?_, Nat.toDigits_ne_nil, hdec, hvalue⟩
  rw [Pyjobby.jobChannel, String.toList_append]
  exact congrArg _ Nat.toList_repr

end Parsing

namespace Dashboard

variable {d : Dashboard}

theorem finish_subscribers_of_ne {b : Broadcast} {c : String} (hc : c ≠ b.channel) :
    (d.finish b).subscribers c = d.subscribers c := by
  have hclean : (d.cleanUpDead b).subscribers c = d.subscribers c := by
    rw [cleanUpDead_subscribers, if_neg hc]
  unfold finish
  dsimp only
  split
  · rw [detachAll_subscribers, hclean]
    simp [hc]
  · exact hclean

theorem broadcastEvent_subscribers (id : Nat) (channel : String) (feed : Feed) :
    (d.broadcastEvent id channel feed).subscribers = d.subscribers := by
  unfold broadcastEvent
  split <;> rfl

end Dashboard

namespace Beat

variable {env : BeatEnv} {channel : String} {ws jobId : Nat} {state : Option JorbState} {s : Beat}

theorem sendAll_events (todo : List Nat) (b : Broadcast) (s : Beat) :
    (sendAll env jobId state todo b s).2.events = s.events ++
      todo.map fun ws => .jorbDone ws b.channel jobId state (env.sends b.channel ws) := by
  induction todo generalizing b s with
  | nil => simp [sendAll]
  | cons ws todo ih =>
    rw [sendAll, ih]
    simp

theorem sendAll_channel (todo : List Nat) (b : Broadcast) (s : Beat) :
    (sendAll env jobId state todo b s).1.channel = b.channel := by
  induction todo generalizing b s with
  | nil => rfl
  | cons ws todo ih => rw [sendAll, ih]

theorem sendAll_subscribers (hleaves : env.Leaves channel ws) (todo : List Nat) (b : Broadcast)
    (h : ws ∈ s.dashboard.subscribers channel) :
    ws ∈ (sendAll env jobId state todo b s).2.dashboard.subscribers channel := by
  induction todo generalizing b s with
  | nil => exact h
  | cons first todo ih =>
    rw [sendAll]
    exact ih _ (hleaves.2 b.channel first s.dashboard h)

theorem deliver_events (env : BeatEnv) (channel : String) (jobId : Nat) (state : Option JorbState)
    (s : Beat) : ∃ sent, (s.deliver env channel jobId state).events = s.events ++ sent ∧
    ∀ ws ∈ s.dashboard.subscribers channel,
      .jorbDone ws channel jobId state (env.sends channel ws) ∈ sent := by
  unfold deliver
  cases hset : s.dashboard.subscriptions channel with
  | none => exact ⟨[], by simp, by simp [Dashboard.subscribers, hset]⟩
  | some set =>
    refine ⟨_, sendAll_events _ _ _, fun ws hws => List.mem_map.mpr ⟨ws, ?_, rfl⟩⟩
    simpa [Dashboard.subscribers, hset] using hws

/-- Delivering on another channel leaves the subscribers of `channel`. -/
theorem deliver_subscribers (hleaves : env.Leaves channel ws) {other : String}
    (hother : channel ≠ other) (h : ws ∈ s.dashboard.subscribers channel) :
    ws ∈ (s.deliver env other jobId state).dashboard.subscribers channel := by
  unfold deliver
  cases hset : s.dashboard.subscriptions other with
  | none => exact h
  | some set =>
    dsimp only
    rw [Dashboard.finish_subscribers_of_ne (by rw [sendAll_channel]; exact hother)]
    refine sendAll_subscribers hleaves _ _ ?_
    rwa [Dashboard.broadcastEvent_subscribers]

theorem rearm_events (watch : String × Nat) : s.events <+: (s.rearm env watch).events := by
  unfold rearm
  dsimp only
  split
  · exact List.prefix_rfl
  · have hstatement := List.prefix_append s.events [.statement watch.1 watch.2]
    split
    · exact hstatement
    · split
      · rename_i state _ _
        obtain ⟨sent, hsent, -⟩ := deliver_events env watch.1 watch.2 state
          ⟨env.querying watch.1 s.dashboard, s.events ++ [.statement watch.1 watch.2]⟩
        rw [hsent]
        exact hstatement.trans (List.prefix_append _ _)
      · exact hstatement

theorem rearm_subscribers (hleaves : env.Leaves channel ws) {other : String}
    (hother : channel ≠ other) (h : ws ∈ s.dashboard.subscribers channel) :
    ws ∈ (s.rearm env (other, jobId)).dashboard.subscribers channel := by
  have hquery := hleaves.1 other s.dashboard h
  unfold rearm
  dsimp only
  split
  · exact hquery
  · split
    · exact hquery
    · split
      · exact deliver_subscribers hleaves hother hquery
      · exact hquery

theorem rearm_serves (env : BeatEnv) (channel : String) (s : Beat) (hid : jobId ≤ maxBigint) :
    .statement channel jobId ∈ (s.rearm env (channel, jobId)).events ∧
      ∀ state, env.fetchval channel = .ok state → state.all JorbState.terminal →
        ∀ ws ∈ s.dashboard.subscribers channel, env.Leaves channel ws →
          .jorbDone ws channel jobId state (env.sends channel ws) ∈
            (s.rearm env (channel, jobId)).events := by
  have hstatement : .statement channel jobId ∈ s.events ++ [.statement channel jobId] :=
    List.mem_append_right _ (List.mem_singleton_self _)
  simp only [rearm, not_lt.mpr hid, if_false]
  cases hfetch : env.fetchval channel with
  | error e => exact ⟨hstatement, nofun⟩
  | ok answer =>
    by_cases hterminal : answer.all JorbState.terminal
    · obtain ⟨sent, hsent, hdone⟩ := deliver_events env channel jobId answer
        ⟨env.querying channel s.dashboard, s.events ++ [.statement channel jobId]⟩
      simp only [hterminal, if_true, hsent]
      refine ⟨List.mem_append_left _ hstatement, ?_⟩
      rintro state hstate - ws hws hleaves
      obtain rfl := Except.ok.inj hstate
      exact List.mem_append_right _ (hdone ws (hleaves.1 channel s.dashboard hws))
    · simp only [hterminal, if_false, Bool.false_eq_true]
      refine ⟨hstatement, ?_⟩
      rintro state hstate hended
      obtain rfl := Except.ok.inj hstate
      exact absurd hended hterminal

theorem foldl_events (env : BeatEnv) (watched : List (String × Nat)) (s : Beat) :
    s.events <+: (watched.foldl (rearm env) s).events := by
  induction watched generalizing s with
  | nil => exact List.prefix_rfl
  | cons watch watched ih => exact (rearm_events watch).trans (ih _)

/-- A turn for the channel is among them; those before it are of other channels or of
the same and serve it. -/
theorem foldl_serves {watched : List (String × Nat)} (hmem : (channel, jobId) ∈ watched)
    (honly : ∀ j, (channel, j) ∈ watched → j = jobId) (hid : jobId ≤ maxBigint) (s : Beat) :
    .statement channel jobId ∈ (watched.foldl (rearm env) s).events ∧
      ∀ state, env.fetchval channel = .ok state → state.all JorbState.terminal →
        ∀ ws ∈ s.dashboard.subscribers channel, env.Leaves channel ws →
          .jorbDone ws channel jobId state (env.sends channel ws) ∈
            (watched.foldl (rearm env) s).events := by
  induction watched generalizing s with
  | nil => cases hmem
  | cons watch watched ih =>
    obtain ⟨other, j⟩ := watch
    rw [List.foldl_cons]
    by_cases hsame : channel = other
    · subst hsame
      obtain rfl := honly j List.mem_cons_self
      obtain ⟨hstatement, hdone⟩ := rearm_serves env channel s hid
      have hkept := (foldl_events env watched (s.rearm env (channel, j))).subset
      exact ⟨hkept hstatement, fun state hstate hended ws hws hleaves =>
        hkept (hdone state hstate hended ws hws hleaves)⟩
    · have hrest : (channel, jobId) ∈ watched :=
        (List.mem_cons.mp hmem).resolve_left fun h => hsame (Prod.mk.inj h).1
      obtain ⟨hstatement, hdone⟩ := ih hrest (fun k hk => honly k (List.mem_cons_of_mem _ hk))
        (s.rearm env (other, j))
      exact ⟨hstatement, fun state hstate hended ws hws hleaves =>
        hdone state hstate hended ws (rearm_subscribers hleaves hsame hws) hleaves⟩

end Beat

/-- A beat serves the watched jobs exactly if no channel is `job:` and characters that
`isdigit` accepts and `int` does not. -/
theorem rearm_job_watches_serves {u : Digits} {env : BeatEnv} {keys : List String} {d : Dashboard}
    (hpool : env.pool) (hkeys : ∀ channel, channel ∈ keys ↔ (d.subscriptions channel).isSome)
    (hbound : ∀ channel ∈ keys, channel.length ≤ maxChannelNameLength) :
    BeatServes u env keys d ↔ ∀ channel, (d.subscriptions channel).isSome → ¬Misread u channel := by
  have hreads : (∃ watched, watchedJobs u keys = .ok watched) ↔
      ∀ channel, (d.subscriptions channel).isSome → ¬Misread u channel := by
    rw [watchedJobs_ok_iff]
    refine forall_congr' fun channel => ?_
    rw [← hkeys]
    exact forall_congr' fun hmem => not_congr (watchedJob_raises_iff (hbound channel hmem))
  rw [← hreads, BeatServes, rearmJobWatches, if_pos hpool]
  cases hwatched : watchedJobs u keys with
  | error e => simp [bind, Except.bind]
  | ok watched =>
    refine iff_of_true ⟨_, rfl, fun channel jobId hsome hwatch hid => ?_⟩ ⟨watched, rfl⟩
    have hmem := (hkeys channel).mpr hsome
    have hread := watchedJob_isWatch (hbound channel hmem) hwatch
    refine Beat.foldl_serves ((mem_watchedJobs hwatched).mpr ⟨hmem, hread⟩) (fun j hj => ?_) hid _
    have := ((mem_watchedJobs hwatched).mp hj).2.symm.trans hread
    exact Option.some.inj (Except.ok.inj this)

/-- Nobody else acts during the beat, every send succeeds and the watched job is gone. -/
def quietBeat : BeatEnv where
  pool := true
  fetchval _ := .ok none
  sends _ _ := true
  querying _ d := d
  sending _ _ d := d

def watchingActs (channels : List String) : List DashboardAct :=
  [.request 0, .prepared 0, .sent 0, .request 1, .prepared 1, .sent 1, .watch 0 7, .watched 0 true,
    .subscribe 1 channels]

/-- A client watches a job; another subscribes to a name that is no job. -/
def bystanderRun : DashboardRun := .ofList (.init 100 1000) (watchingActs ["job:x"]) (by decide)

theorem two_keys (first second channel : String) : channel ∈ [first, second] ↔
    (Function.update (Function.update (fun _ => none) first (some 0)) second (some 1) channel
      : Option Nat).isSome := by
  by_cases hsecond : channel = second
  · simp [hsecond]
  · by_cases hfirst : channel = first
    · subst hfirst
      simp [Function.update_of_ne hsecond]
    · simp [hfirst, hsecond, Function.update_of_ne]

theorem rearm_job_watches_serves_bystander :
    BeatServes .latin1 quietBeat ["job:7", "job:x"] (bystanderRun.state 9) := by
  have hkeys : ∀ channel, channel ∈ ["job:7", "job:x"] ↔
      ((bystanderRun.state 9).subscriptions channel).isSome := two_keys "job:7" "job:x"
  have hbound : ∀ channel ∈ ["job:7", "job:x"], channel.length ≤ maxChannelNameLength := by decide
  have hwatched : watchedJobs .latin1 ["job:7", "job:x"] = .ok [("job:7", 7)] := by decide
  refine (rearm_job_watches_serves rfl hkeys hbound).mpr fun channel hsome => ?_
  have hmem := (hkeys channel).mpr hsome
  rw [← watchedJob_raises_iff (hbound channel hmem)]
  exact watchedJobs_ok_iff.mp ⟨_, hwatched⟩ channel hmem

/-- The other client subscribes to a superscript instead. -/
def superscriptRun : DashboardRun := .ofList (.init 100 1000) (watchingActs ["job:²"]) (by decide)

theorem rearm_job_watches_stopped :
    ¬∀ (u : Digits) (env : BeatEnv) (keys : List String) (ρ : DashboardRun) (n : Nat),
      env.pool → (∃ maxSubscriptions maxClients, ρ.state 0 = .init maxSubscriptions maxClients) →
        n ≤ ρ.length → (∀ channel, channel ∈ keys ↔ ((ρ.state n).subscriptions channel).isSome) →
          (∀ channel ∈ keys, channel.length ≤ maxChannelNameLength) →
            BeatServes u env keys (ρ.state n) := by
  intro h
  obtain ⟨s, hs, -⟩ := h .latin1 quietBeat ["job:7", "job:²"] superscriptRun 9 rfl ⟨_, _, rfl⟩
    (by decide) (two_keys "job:7" "job:²") (by decide)
  have hraises : watchedJobs .latin1 ["job:7", "job:²"] = .error (.valueError ['²']) := by decide
  rw [rearmJobWatches, if_pos (show quietBeat.pool from rfl), hraises] at hs
  cases hs

end Pyjobby
