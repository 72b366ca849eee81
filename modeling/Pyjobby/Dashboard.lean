import Pyjobby.Lib.Run
import Pyjobby.Lib.Table
import Mathlib.Data.Finset.Card
import Mathlib.Logic.Function.Basic

/-! The subscriptions of the dashboard server: two records of one relation between
sockets and channels, kept by the handlers of the clients and by broadcasts that send in
the middle of their work. -/

namespace Pyjobby

open Relational Transition

/-- Where `handle_websocket` stands for a socket: at an await, or before or after it. -/
inductive HandlerPos where
  | absent
  | preparing
  | receiving
  | replying
  | watching (jobId : Nat)
  | gone
  deriving DecidableEq

/-- Who calls `broadcast_event`: a task of its own for each notification, or the
snapshot task. -/
inductive Feed where
  | notification
  | snapshot
  | rearm
  deriving DecidableEq

/-- A call of `broadcast_event`. `set` names the set object it read under the channel,
`todo` are the sockets of its copy that it has yet to send to. -/
structure Broadcast where
  id : Nat
  channel : String
  feed : Feed
  set : Nat
  todo : Finset Nat
  dead : Finset Nat

/-- The server. `subscriptions` maps a channel to a set object, `sets` has the content
of the sets made for a channel, also of those no longer under its key. -/
structure Dashboard where
  maxSubscriptions : Nat
  maxClients : Nat
  clients : Finset Nat
  channels : Nat → Finset String
  subscriptions : String → Option Nat
  sets : String → Nat → Finset Nat
  nextSet : Nat
  handler : Nat → HandlerPos
  broadcasts : Table Broadcast.id

inductive DashboardAct where
  | request (ws : Nat)
  | prepared (ws : Nat)
  | sent (ws : Nat)
  | subscribe (ws : Nat) (channels : List String)
  | unsubscribe (ws : Nat) (channels : List String)
  | watch (ws jobId : Nat)
  | watched (ws : Nat) (found : Bool)
  | unwatch (ws jobId : Nat)
  | otherAction (ws : Nat)
  | disconnect (ws : Nat)
  | broadcast (id : Nat) (channel : String) (feed : Feed)
  | sendTo (id ws : Nat) (ok : Bool)
  | finish (id : Nat)
  | cancel (id : Nat)

instance : Inhabited DashboardAct := ⟨.request 0⟩

def jobChannelPrefix : String := "job:"

def jobChannel (jobId : Nat) : String := jobChannelPrefix ++ toString jobId

namespace Dashboard

def init (maxSubscriptions maxClients : Nat) : Dashboard where
  maxSubscriptions := maxSubscriptions
  maxClients := maxClients
  clients := ∅
  channels _ := ∅
  subscriptions _ := none
  sets _ _ := ∅
  nextSet := 0
  handler _ := .absent
  broadcasts := .empty

/-- The sockets under a channel's key. -/
def subscribers (s : Dashboard) (channel : String) : Finset Nat :=
  (s.subscriptions channel).elim ∅ (s.sets channel)

def moveTo (s : Dashboard) (ws : Nat) (pos : HandlerPos) : Dashboard :=
  { s with handler := Function.update s.handler ws pos }

/-- `setdefault(channel, set()).add(ws)`. -/
def addSubscriber (s : Dashboard) (ws : Nat) (channel : String) : Dashboard :=
  match s.subscriptions channel with
  | some set =>
    { s with
      sets := fun c k =>
        if c = channel ∧ k = set then insert ws (s.sets c k) else s.sets c k }
  | none =>
    { s with
      subscriptions := Function.update s.subscriptions channel (some s.nextSet)
      sets := fun c k => if c = channel ∧ k = s.nextSet then {ws} else s.sets c k
      nextSet := s.nextSet + 1 }

def attach (s : Dashboard) (ws : Nat) (channel : String) : Dashboard :=
  if channel ∈ s.channels ws then s
  else
    { s.addSubscriber ws channel with
      channels := Function.update s.channels ws (insert channel (s.channels ws)) }

/-- `detach` for some sockets and channels at once: the channels leave the clients' own
sets, the sockets leave the sets under the keys, and a key goes with its last socket. -/
def detachAll (s : Dashboard) (who : Finset Nat) (p : String → Bool) : Dashboard :=
  { s with
    channels := fun ws => if ws ∈ who then (s.channels ws).filter fun c => !p c else s.channels ws
    sets := fun c k =>
      if p c ∧ s.subscriptions c = some k then s.sets c k \ who else s.sets c k
    subscriptions := fun c =>
      if p c then (s.subscriptions c).filter fun k => (s.sets c k \ who).Nonempty
      else s.subscriptions c }

def detach (s : Dashboard) (ws : Nat) (channel : String) : Dashboard :=
  s.detachAll {ws} fun c => c = channel

/-- The `finally` of `handle_websocket`: out of `clients`, each of the client's channels
detached, and what is left of the socket swept from every key. -/
def cleanup (s : Dashboard) (ws : Nat) : Dashboard :=
  (({ s with clients := s.clients.erase ws }.detachAll {ws} fun c => c ∈ s.channels ws).detachAll
    {ws} fun _ => true).moveTo ws .gone

def handleSubscribe (s : Dashboard) (ws : Nat) (channels : List String) : Dashboard :=
  if (s.channels ws).card + channels.length > s.maxSubscriptions then s
  else channels.foldl (fun s c => s.attach ws c) s

def handleUnsubscribe (s : Dashboard) (ws : Nat) (channels : List String) : Dashboard :=
  channels.foldl (fun s c => s.detach ws c) s

/-- `handle_watch_job` as far as the query it awaits. -/
def handleWatchJob (s : Dashboard) (ws jobId : Nat) : Dashboard :=
  if jobChannel jobId ∉ s.channels ws ∧ (s.channels ws).card ≥ s.maxSubscriptions then
    s.moveTo ws .replying
  else s.moveTo ws (.watching jobId)

/-- The snapshot task runs one broadcast at a time. -/
def mayBroadcast (s : Dashboard) (channel : String) (feed : Feed) : Bool :=
  match feed with
  | .notification => true
  | .snapshot => s.broadcasts.rows.all fun b => b.feed = .notification
  | .rearm => channel.startsWith jobChannelPrefix && s.broadcasts.rows.all fun b =>
      b.feed = .notification

/-- A call of `broadcast_event` as far as its first await; there is none, and nothing
to do, where the channel has no key. -/
def broadcastEvent (s : Dashboard) (id : Nat) (channel : String) (feed : Feed) : Dashboard :=
  match s.subscriptions channel with
  | none => s
  | some set =>
    { s with broadcasts := s.broadcasts.put ⟨id, channel, feed, set, s.sets channel set, ∅⟩ }

def sendTo (s : Dashboard) (b : Broadcast) (ws : Nat) (ok : Bool) : Dashboard :=
  { s with
    broadcasts := s.broadcasts.put
      { b with todo := b.todo.erase ws, dead := if ok then b.dead else insert ws b.dead } }

/-- The end of `broadcast_event`: the dead sockets leave the set it read at its start and
the clients, and the key is popped if that set is now empty. -/
def cleanUpDead (s : Dashboard) (b : Broadcast) : Dashboard :=
  { s with
    clients := s.clients \ b.dead
    sets := fun c k => if c = b.channel ∧ k = b.set then s.sets c k \ b.dead else s.sets c k
    subscriptions :=
      if s.sets b.channel b.set ⊆ b.dead then Function.update s.subscriptions b.channel none
      else s.subscriptions
    broadcasts := s.broadcasts.delete fun d => d.id = b.id }

/-- `_rearm_job_watches` goes on at once to close the watch of every client left. -/
def finish (s : Dashboard) (b : Broadcast) : Dashboard :=
  let s' := s.cleanUpDead b
  match b.feed with
  | .rearm => s'.detachAll (s'.subscribers b.channel ∩ s'.clients) fun c => c = b.channel
  | _ => s'

def step (s : Dashboard) : DashboardAct → Option Dashboard
  | .request ws =>
    if s.handler ws = .absent ∧ s.clients.card < s.maxClients then some (s.moveTo ws .preparing)
    else none
  | .prepared ws =>
    if s.handler ws = .preparing then
      some { s.moveTo ws .replying with clients := insert ws s.clients }
    else none
  | .sent ws => if s.handler ws = .replying then some (s.moveTo ws .receiving) else none
  | .subscribe ws channels =>
    if s.handler ws = .receiving then some ((s.handleSubscribe ws channels).moveTo ws .replying)
    else none
  | .unsubscribe ws channels =>
    if s.handler ws = .receiving then some ((s.handleUnsubscribe ws channels).moveTo ws .replying)
    else none
  | .watch ws jobId => if s.handler ws = .receiving then some (s.handleWatchJob ws jobId) else none
  | .watched ws found =>
    match s.handler ws with
    | .watching jobId =>
      some ((if found then s.attach ws (jobChannel jobId) else s).moveTo ws .replying)
    | _ => none
  | .unwatch ws jobId =>
    if s.handler ws = .receiving then some ((s.detach ws (jobChannel jobId)).moveTo ws .replying)
    else none
  | .otherAction ws => if s.handler ws = .receiving then some (s.moveTo ws .replying) else none
  | .disconnect ws =>
    match s.handler ws with
    | .receiving | .replying | .watching _ => some (s.cleanup ws)
    | .absent | .preparing | .gone => none
  | .broadcast id channel feed =>
    if (s.broadcasts.find? id).isNone ∧ s.mayBroadcast channel feed then
      some (s.broadcastEvent id channel feed)
    else none
  | .sendTo id ws ok =>
    (s.broadcasts.find? id).bind fun b => if ws ∈ b.todo then some (s.sendTo b ws ok) else none
  | .finish id =>
    (s.broadcasts.find? id).bind fun b => if b.todo = ∅ then some (s.finish b) else none
  | .cancel id => some { s with broadcasts := s.broadcasts.delete fun b => b.id = id }

end Dashboard

abbrev DashboardRun := Run Dashboard.step

/-- The handshake is not over. -/
def HandlerPos.unborn : HandlerPos → Bool
  | .absent | .preparing => true
  | .receiving | .replying | .watching _ | .gone => false

namespace Dashboard

/-- The two records agree on every client still connected. -/
def Consistent (s : Dashboard) : Prop :=
  ∀ ws ∈ s.clients, ∀ channel, ws ∈ s.subscribers channel ↔ channel ∈ s.channels ws

/-- A key's set is not empty, unless a broadcast of the channel is under way. -/
def KeysUsed (s : Dashboard) : Prop :=
  ∀ channel, (s.subscriptions channel).isSome →
    (s.subscribers channel).Nonempty ∨ ∃ b ∈ s.broadcasts, b.channel = channel

def WithinLimit (s : Dashboard) : Prop := ∀ ws, (s.channels ws).card ≤ s.maxSubscriptions

def Sound (s : Dashboard) : Prop := s.Consistent ∧ s.KeysUsed ∧ s.WithinLimit

/-- A broadcast whose own set is empty at its end pops no other set that a connected
client has joined meanwhile. -/
def SparesNewcomers (s : Dashboard) (a : DashboardAct) : Prop :=
  ∀ id b, a = .finish id → s.broadcasts.find? id = some b → s.sets b.channel b.set ⊆ b.dead →
    s.subscriptions b.channel ≠ some b.set →
      ∀ ws ∈ s.subscribers b.channel, ws ∈ s.clients → ws ∈ b.dead

variable {s s' : Dashboard}

section Operations

@[simp]
theorem moveTo_subscribers (ws : Nat) (pos : HandlerPos) (channel : String) :
    (s.moveTo ws pos).subscribers channel = s.subscribers channel := rfl

theorem attach_subscribers (ws : Nat) {channel : String} (h : channel ∉ s.channels ws)
    (c : String) : (s.attach ws channel).subscribers c =
      if c = channel then insert ws (s.subscribers c) else s.subscribers c := by
  simp only [attach, h, if_false, addSubscriber]
  cases hset : s.subscriptions channel with
  | some set =>
    by_cases hc : c = channel
    · subst hc
      simp [subscribers, hset]
    · simp [subscribers, hc]
  | none =>
    by_cases hc : c = channel
    · subst hc
      simp [subscribers, hset]
    · simp [subscribers, hc]

theorem addSubscriber_frame (ws : Nat) (channel : String) :
    (s.addSubscriber ws channel).clients = s.clients ∧
      (s.addSubscriber ws channel).channels = s.channels ∧
      (s.addSubscriber ws channel).handler = s.handler ∧
      (s.addSubscriber ws channel).maxSubscriptions = s.maxSubscriptions := by
  unfold addSubscriber
  split <;> exact ⟨rfl, rfl, rfl, rfl⟩

theorem attach_frame (ws : Nat) (channel : String) : (s.attach ws channel).clients = s.clients ∧
    (s.attach ws channel).handler = s.handler ∧
    (s.attach ws channel).maxSubscriptions = s.maxSubscriptions := by
  obtain ⟨hclients, -, hhandler, hmax⟩ := s.addSubscriber_frame ws channel
  unfold attach
  split
  · exact ⟨rfl, rfl, rfl⟩
  · exact ⟨hclients, hhandler, hmax⟩

theorem attach_channels (ws : Nat) (channel : String) : (s.attach ws channel).channels =
    Function.update s.channels ws (insert channel (s.channels ws)) := by
  unfold attach
  split
  · rw [Finset.insert_eq_of_mem ‹_›, Function.update_eq_self]
  · rfl

theorem detachAll_subscribers (who : Finset Nat) (p : String → Bool) (c : String) :
    (s.detachAll who p).subscribers c = if p c then s.subscribers c \ who else s.subscribers c := by
  cases hset : s.subscriptions c with
  | none => simp [detachAll, subscribers, hset]
  | some set =>
    by_cases hp : p c
    · by_cases hne : (s.sets c set \ who).Nonempty
      · simp [detachAll, subscribers, hset, hp, Option.filter, hne]
      · have hempty : s.sets c set \ who = ∅ := Finset.not_nonempty_iff_eq_empty.mp hne
        simp [detachAll, subscribers, hset, hp, Option.filter, hempty]
    · simp [detachAll, subscribers, hset, hp]

theorem cleanUpDead_subscribers (b : Broadcast) (c : String) :
    (s.cleanUpDead b).subscribers c =
      if c = b.channel then
        if s.sets c b.set ⊆ b.dead then ∅
        else if s.subscriptions c = some b.set then s.subscribers c \ b.dead else s.subscribers c
      else s.subscribers c := by
  by_cases hc : c = b.channel
  · subst hc
    by_cases hempty : s.sets b.channel b.set ⊆ b.dead
    · simp [cleanUpDead, subscribers, hempty]
    · cases hset : s.subscriptions b.channel with
      | none => simp [cleanUpDead, subscribers, hempty, hset]
      | some set =>
        by_cases hsame : set = b.set <;> simp [cleanUpDead, subscribers, hempty, hset, hsame]
  · by_cases hempty : s.sets b.channel b.set ⊆ b.dead <;>
      simp [cleanUpDead, subscribers, hempty, hc]

end Operations

namespace Consistent

/-- Nothing that `Consistent` speaks of has changed. -/
theorem congr (h : s.Consistent) (hclients : s'.clients ⊆ s.clients)
    (hsub : s'.subscribers = s.subscribers) (hchan : s'.channels = s.channels) : s'.Consistent := by
  intro ws hws channel
  rw [hsub, hchan]
  exact h ws (hclients hws) channel

theorem attach (h : s.Consistent) (ws : Nat) (channel : String) :
    (s.attach ws channel).Consistent := by
  by_cases hin : channel ∈ s.channels ws
  · simpa [Dashboard.attach, hin] using h
  · intro u hu c
    rw [(s.attach_frame ws channel).1] at hu
    rw [attach_subscribers ws hin, attach_channels]
    by_cases hc : c = channel <;> by_cases huw : u = ws
    · simp [hc, huw]
    · simpa [hc, huw, Function.update_of_ne huw] using h u hu channel
    · subst huw
      simpa [hc] using h u hu c
    · simpa [hc, Function.update_of_ne huw] using h u hu c

theorem detachAll (h : s.Consistent) (who : Finset Nat) (p : String → Bool) :
    (s.detachAll who p).Consistent := by
  intro u hu c
  rw [detachAll_subscribers]
  have hold := h u hu c
  by_cases hw : u ∈ who <;> by_cases hp : p c <;> simp [Dashboard.detachAll, hw, hp, hold]

theorem cleanUpDead (h : s.Consistent) (b : Broadcast)
    (hspares : s.sets b.channel b.set ⊆ b.dead → s.subscriptions b.channel ≠ some b.set →
      ∀ ws ∈ s.subscribers b.channel, ws ∈ s.clients → ws ∈ b.dead) :
    (s.cleanUpDead b).Consistent := by
  intro ws hws c
  obtain ⟨hws, halive⟩ := Finset.mem_sdiff.mp hws
  have hold : ws ∈ s.subscribers c ↔ c ∈ (s.cleanUpDead b).channels ws := h ws hws c
  rw [cleanUpDead_subscribers, ← hold]
  by_cases hc : c = b.channel
  · subst hc
    simp only [if_true]
    by_cases hempty : s.sets b.channel b.set ⊆ b.dead
    · simp only [hempty, if_true, Finset.notMem_empty, false_iff]
      intro hmem
      by_cases hset : s.subscriptions b.channel = some b.set
      · simp only [subscribers, hset, Option.elim_some] at hmem
        exact halive (hempty hmem)
      · exact halive (hspares hempty hset ws hmem hws)
    · by_cases hset : s.subscriptions b.channel = some b.set <;> simp [hempty, hset, halive]
  · simp [hc]

theorem finish (h : s.Consistent) (b : Broadcast)
    (hspares : s.sets b.channel b.set ⊆ b.dead → s.subscriptions b.channel ≠ some b.set →
      ∀ ws ∈ s.subscribers b.channel, ws ∈ s.clients → ws ∈ b.dead) : (s.finish b).Consistent := by
  unfold Dashboard.finish
  dsimp only
  split
  · exact (h.cleanUpDead b hspares).detachAll _ _
  · exact h.cleanUpDead b hspares

end Consistent

/-- A newcomer whose key is popped stays a client that takes itself for subscribed. -/
theorem finish_loses {b : Broadcast} {ws : Nat} (h : s.Consistent)
    (hempty : s.sets b.channel b.set ⊆ b.dead) (hws : ws ∈ s.subscribers b.channel)
    (hclient : ws ∈ s.clients) (halive : ws ∉ b.dead) : ¬(s.finish b).Consistent := by
  intro h'
  have hgone : (s.cleanUpDead b).subscribers b.channel = ∅ := by
    simp [cleanUpDead_subscribers, hempty]
  have hcleaned : ws ∈ (s.cleanUpDead b).clients := Finset.mem_sdiff.mpr ⟨hclient, halive⟩
  have hchannel : b.channel ∈ (s.cleanUpDead b).channels ws := (h ws hclient b.channel).mp hws
  unfold finish at h'
  dsimp only at h'
  split at h'
  · have := (h' ws hcleaned b.channel).mpr (by simpa [detachAll, hgone] using hchannel)
    rw [detachAll_subscribers, hgone] at this
    simp at this
  · have := (h' ws hcleaned b.channel).mpr hchannel
    rw [hgone] at this
    simp at this

/-- What no order of steps breaks: a key's set has a socket, and a client is within its
limit, also with the watch it is waiting for. -/
structure Tidy (s : Dashboard) : Prop where
  occupied : ∀ c set, s.subscriptions c = some set → (s.sets c set).Nonempty
  limit : s.WithinLimit
  watching : ∀ ws jobId, s.handler ws = .watching jobId →
    (insert (jobChannel jobId) (s.channels ws)).card ≤ s.maxSubscriptions

namespace Tidy

theorem keysUsed (h : s.Tidy) : s.KeysUsed := by
  intro c hc
  obtain ⟨set, hset⟩ := Option.isSome_iff_exists.mp hc
  refine .inl ?_
  simpa [subscribers, hset] using h.occupied c set hset

theorem moveTo (h : s.Tidy) (ws : Nat) {pos : HandlerPos}
    (hpos : ∀ jobId, pos = .watching jobId →
      (insert (jobChannel jobId) (s.channels ws)).card ≤ s.maxSubscriptions) :
    (s.moveTo ws pos).Tidy where
  occupied := h.occupied
  limit := h.limit
  watching u jobId hu := by
    by_cases huw : u = ws
    · subst huw
      exact hpos jobId (by simpa [Dashboard.moveTo] using hu)
    · exact h.watching u jobId (by simpa [Dashboard.moveTo, Function.update_of_ne huw] using hu)

theorem detachAll (h : s.Tidy) (who : Finset Nat) (p : String → Bool) :
    (s.detachAll who p).Tidy := by
  have hsub (ws : Nat) : (s.detachAll who p).channels ws ⊆ s.channels ws := by
    simp only [Dashboard.detachAll]
    split
    · exact Finset.filter_subset _ _
    · exact subset_rfl
  refine ⟨fun c set hset => ?_, fun ws => (Finset.card_le_card (hsub ws)).trans (h.limit ws),
    fun ws jobId hw => (Finset.card_le_card (Finset.insert_subset_insert _ (hsub ws))).trans
      (h.watching ws jobId hw)⟩
  simp only [Dashboard.detachAll] at hset ⊢
  by_cases hp : p c
  · simp only [hp, if_true, Option.filter_eq_some_iff, decide_eq_true_eq] at hset
    simp only [hp, hset.1, and_self, if_true]
    exact hset.2
  · simp only [hp, Bool.false_eq_true, if_false] at hset
    simp only [hp, Bool.false_eq_true, false_and, if_false]
    exact h.occupied c set hset

theorem cleanUpDead (h : s.Tidy) (b : Broadcast) : (s.cleanUpDead b).Tidy where
  limit := h.limit
  watching := h.watching
  occupied c set hset := by
    simp only [Dashboard.cleanUpDead] at hset ⊢
    by_cases hempty : s.sets b.channel b.set ⊆ b.dead
    · simp only [hempty, if_true] at hset
      have hc : c ≠ b.channel := fun hc => by simp [hc] at hset
      rw [Function.update_of_ne hc] at hset
      simp only [hc, false_and, if_false]
      exact h.occupied c set hset
    · simp only [hempty, if_false] at hset
      split
      · rename_i hsame
        rw [hsame.1, hsame.2]
        exact Finset.sdiff_nonempty.mpr hempty
      · exact h.occupied c set hset

theorem addSubscriber (h : s.Tidy) (ws : Nat) (channel : String) :
    (s.addSubscriber ws channel).Tidy := by
  unfold Dashboard.addSubscriber
  cases hkey : s.subscriptions channel with
  | some set =>
    refine ⟨fun c k hk => ?_, h.limit, h.watching⟩
    by_cases hsame : c = channel ∧ k = set
    · simp [hsame]
    · simp only [hsame, if_false]
      exact h.occupied c k hk
  | none =>
    refine ⟨fun c k hk => ?_, h.limit, h.watching⟩
    by_cases hc : c = channel
    · obtain rfl : s.nextSet = k := by simpa [hc] using hk
      simp [hc]
    · simp only [hc, false_and, if_false]
      exact h.occupied c k (by simpa [Function.update_of_ne hc] using hk)

theorem attach (h : s.Tidy) {ws : Nat} {channel : String}
    (hcard : (insert channel (s.channels ws)).card ≤ s.maxSubscriptions)
    (hpos : ∀ jobId, s.handler ws = .watching jobId → channel = jobChannel jobId) :
    (s.attach ws channel).Tidy := by
  unfold Dashboard.attach
  split
  · exact h
  · have hadd := h.addSubscriber ws channel
    obtain ⟨-, -, hhandler, hmax⟩ := s.addSubscriber_frame ws channel
    refine ⟨hadd.occupied, fun u => ?_, fun u jobId hu => ?_⟩
    · by_cases huw : u = ws
      · subst huw
        simpa [hmax] using hcard
      · simpa [hmax, Function.update_of_ne huw] using h.limit u
    · simp only [hhandler] at hu
      by_cases huw : u = ws
      · subst huw
        have hchan := hpos jobId hu
        subst hchan
        simpa [hmax] using hcard
      · simpa [hmax, Function.update_of_ne huw] using h.watching u jobId hu

theorem handleSubscribe (h : s.Tidy) {ws : Nat} (hpos : s.handler ws = .receiving)
    (channels : List String) : (s.handleSubscribe ws channels).Tidy := by
  unfold Dashboard.handleSubscribe
  split
  · exact h
  · rename_i hlen
    rw [not_lt] at hlen
    induction channels generalizing s with
    | nil => exact h
    | cons c channels ih =>
      have hcard : (insert c (s.channels ws)).card ≤ (s.channels ws).card + 1 :=
        Finset.card_insert_le c _
      rw [List.length_cons] at hlen
      have hattach : (s.attach ws c).Tidy := h.attach (by omega) (by simp [hpos])
      obtain ⟨-, hhandler, hmax⟩ := s.attach_frame ws c
      refine ih hattach (hhandler ▸ hpos) ?_
      rw [attach_channels, Function.update_self, hmax]
      omega

theorem detach (h : s.Tidy) (ws : Nat) (channel : String) : (s.detach ws channel).Tidy :=
  h.detachAll _ _

theorem handleWatchJob (h : s.Tidy) (ws jobId : Nat) : (s.handleWatchJob ws jobId).Tidy := by
  unfold Dashboard.handleWatchJob
  split
  · exact h.moveTo ws nofun
  · rename_i hfull
    refine h.moveTo ws fun j hj => ?_
    obtain rfl : jobId = j := HandlerPos.watching.inj hj
    by_cases hin : jobChannel jobId ∈ s.channels ws
    · rw [Finset.insert_eq_of_mem hin]
      exact h.limit ws
    · have := Finset.card_insert_le (jobChannel jobId) (s.channels ws)
      have : (s.channels ws).card < s.maxSubscriptions := by simpa [hin] using hfull
      omega

theorem finish (h : s.Tidy) (b : Broadcast) : (s.finish b).Tidy := by
  unfold Dashboard.finish
  dsimp only
  split
  · exact (h.cleanUpDead b).detachAll _ _
  · exact h.cleanUpDead b

theorem cleanup (h : s.Tidy) (ws : Nat) : (s.cleanup ws).Tidy := by
  have herase : ({ s with clients := s.clients.erase ws } : Dashboard).Tidy :=
    ⟨h.occupied, h.limit, h.watching⟩
  exact ((herase.detachAll _ _).detachAll _ _).moveTo ws nofun

end Tidy

theorem Consistent.cleanup (h : s.Consistent) (ws : Nat) : (s.cleanup ws).Consistent := by
  have herase : ({ s with clients := s.clients.erase ws } : Dashboard).Consistent :=
    h.congr (Finset.erase_subset ws s.clients) rfl rfl
  exact ((herase.detachAll _ _).detachAll _ _).congr subset_rfl rfl rfl

/-- A socket still in its handshake is in no set and has no channels. -/
def Unborn (s : Dashboard) : Prop :=
  ∀ ws, (s.handler ws).unborn → s.channels ws = ∅ ∧ ∀ c, ws ∉ s.subscribers c

namespace Unborn

theorem mono (h : s.Unborn) (hpos : ∀ ws, (s'.handler ws).unborn → (s.handler ws).unborn)
    (hchan : ∀ ws, s'.channels ws ⊆ s.channels ws)
    (hsub : ∀ c, s'.subscribers c ⊆ s.subscribers c) : s'.Unborn := by
  intro ws hws
  obtain ⟨hempty, hnot⟩ := h ws (hpos ws hws)
  exact ⟨Finset.subset_empty.mp (hempty ▸ hchan ws), fun c hc => hnot c (hsub c hc)⟩

theorem moveTo (h : s.Unborn) {ws : Nat} {pos : HandlerPos}
    (hpos : pos.unborn → (s.handler ws).unborn) : (s.moveTo ws pos).Unborn := by
  refine h.mono (fun u hu => ?_) (fun _ => subset_rfl) fun _ => subset_rfl
  by_cases huw : u = ws
  · subst huw
    exact hpos (by simpa [Dashboard.moveTo] using hu)
  · simpa [Dashboard.moveTo, Function.update_of_ne huw] using hu

theorem detachAll (h : s.Unborn) (who : Finset Nat) (p : String → Bool) :
    (s.detachAll who p).Unborn := by
  refine h.mono (fun _ hu => hu) (fun ws => ?_) fun c => ?_
  · simp only [Dashboard.detachAll]
    split
    · exact Finset.filter_subset _ _
    · exact subset_rfl
  · rw [detachAll_subscribers]
    split
    · exact Finset.sdiff_subset
    · exact subset_rfl

theorem attach (h : s.Unborn) {ws : Nat} (hborn : (s.handler ws).unborn = false)
    (channel : String) : (s.attach ws channel).Unborn := by
  intro u hu
  rw [(s.attach_frame ws channel).2.1] at hu
  have huw : u ≠ ws := by
    rintro rfl
    rw [hborn] at hu
    cases hu
  obtain ⟨hempty, hnot⟩ := h u hu
  rw [attach_channels, Function.update_of_ne huw]
  refine ⟨hempty, fun c hc => ?_⟩
  by_cases hin : channel ∈ s.channels ws
  · exact hnot c (by simpa [Dashboard.attach, hin] using hc)
  · rw [attach_subscribers ws hin] at hc
    split at hc
    · exact hnot c (Finset.mem_of_mem_insert_of_ne hc huw)
    · exact hnot c hc

theorem cleanUpDead (h : s.Unborn) (b : Broadcast) : (s.cleanUpDead b).Unborn := by
  refine h.mono (fun _ hu => hu) (fun _ => subset_rfl) fun c => ?_
  rw [cleanUpDead_subscribers]
  repeat' split
  · exact Finset.empty_subset _
  · exact Finset.sdiff_subset
  · exact subset_rfl
  · exact subset_rfl

theorem finish (h : s.Unborn) (b : Broadcast) : (s.finish b).Unborn := by
  unfold Dashboard.finish
  dsimp only
  split
  · exact (h.cleanUpDead b).detachAll _ _
  · exact h.cleanUpDead b

end Unborn

/-- The two records agree, and what keeps them so. -/
structure Kept (s : Dashboard) : Prop where
  consistent : s.Consistent
  tidy : s.Tidy
  unborn : s.Unborn

namespace Kept

theorem init (maxSubscriptions maxClients : Nat) :
    (Dashboard.init maxSubscriptions maxClients).Kept where
  consistent _ hws := absurd hws (Finset.notMem_empty _)
  tidy := ⟨nofun, fun _ => Nat.zero_le _, nofun⟩
  unborn _ _ := ⟨rfl, fun _ => Finset.notMem_empty _⟩

theorem moveTo (h : s.Kept) {ws : Nat} {pos : HandlerPos} (hwatch : ∀ jobId, pos ≠ .watching jobId)
    (hpos : pos.unborn → (s.handler ws).unborn) : (s.moveTo ws pos).Kept where
  consistent := h.consistent.congr subset_rfl rfl rfl
  tidy := h.tidy.moveTo ws fun jobId hj => absurd hj (hwatch jobId)
  unborn := h.unborn.moveTo hpos

theorem replying (h : s.Kept) (ws : Nat) : (s.moveTo ws .replying).Kept :=
  h.moveTo nofun nofun

theorem attach (h : s.Kept) {ws : Nat} {channel : String}
    (hcard : (insert channel (s.channels ws)).card ≤ s.maxSubscriptions)
    (hpos : ∀ jobId, s.handler ws = .watching jobId → channel = jobChannel jobId)
    (hborn : (s.handler ws).unborn = false) : (s.attach ws channel).Kept :=
  ⟨h.consistent.attach ws channel, h.tidy.attach hcard hpos, h.unborn.attach hborn channel⟩

theorem detachAll (h : s.Kept) (who : Finset Nat) (p : String → Bool) : (s.detachAll who p).Kept :=
  ⟨h.consistent.detachAll who p, h.tidy.detachAll who p, h.unborn.detachAll who p⟩

theorem detach (h : s.Kept) (ws : Nat) (channel : String) : (s.detach ws channel).Kept :=
  h.detachAll _ _

theorem prepared (h : s.Kept) {ws : Nat} (hpos : s.handler ws = .preparing) :
    ({ s.moveTo ws .replying with clients := insert ws s.clients } : Dashboard).Kept where
  consistent u hu c := by
    rcases Finset.mem_insert.mp hu with rfl | hu
    · obtain ⟨hempty, hnot⟩ := h.unborn u (by simp [hpos, HandlerPos.unborn])
      exact iff_of_false (hnot c) (hempty ▸ Finset.notMem_empty c)
    · exact h.consistent u hu c
  tidy :=
    let ht := (h.replying ws).tidy
    ⟨ht.occupied, ht.limit, ht.watching⟩
  unborn := (h.replying ws).unborn

theorem handleSubscribe (h : s.Kept) {ws : Nat} (hpos : s.handler ws = .receiving)
    (channels : List String) : (s.handleSubscribe ws channels).Kept := by
  have htidy := h.tidy.handleSubscribe hpos channels
  unfold Dashboard.handleSubscribe at htidy ⊢
  split at htidy <;> rename_i hlen
  · simpa [hlen] using h
  · rw [if_neg hlen]
    refine ⟨List.foldlRecOn channels _ h.consistent fun s hs c _ => hs.attach ws c, htidy, ?_⟩
    have hboth := List.foldlRecOn channels (fun (t : Dashboard) c => t.attach ws c)
      (motive := fun t : Dashboard => t.Unborn ∧ t.handler ws = .receiving) ⟨h.unborn, hpos⟩
      fun t ht c _ => ⟨ht.1.attach (by simp [ht.2, HandlerPos.unborn]) c,
        (t.attach_frame ws c).2.1 ▸ ht.2⟩
    exact hboth.1

theorem handleUnsubscribe (h : s.Kept) (ws : Nat) (channels : List String) :
    (s.handleUnsubscribe ws channels).Kept :=
  List.foldlRecOn channels _ h fun _ hs c _ => hs.detach ws c

theorem handleWatchJob (h : s.Kept) (ws jobId : Nat) : (s.handleWatchJob ws jobId).Kept where
  consistent := by
    unfold Dashboard.handleWatchJob
    split <;> exact h.consistent.congr subset_rfl rfl rfl
  tidy := h.tidy.handleWatchJob ws jobId
  unborn := by
    unfold Dashboard.handleWatchJob
    split <;> exact h.unborn.moveTo nofun

theorem watched (h : s.Kept) {ws jobId : Nat} (hpos : s.handler ws = .watching jobId)
    (found : Bool) :
    ((if found then s.attach ws (jobChannel jobId) else s).moveTo ws .replying).Kept := by
  cases found with
  | false => exact h.replying ws
  | true =>
    refine (h.attach (h.tidy.watching ws jobId hpos) (fun j hj => ?_) ?_).replying ws
    · rw [hpos] at hj
      exact congrArg jobChannel (HandlerPos.watching.inj hj)
    · simp [hpos, HandlerPos.unborn]

theorem cleanup (h : s.Kept) (ws : Nat) : (s.cleanup ws).Kept where
  consistent := h.consistent.cleanup ws
  tidy := h.tidy.cleanup ws
  unborn := by
    have herase : ({ s with clients := s.clients.erase ws } : Dashboard).Unborn := h.unborn
    exact ((herase.detachAll _ _).detachAll _ _).moveTo nofun

/-- A broadcast goes on: what is of the sockets and the channels stays. -/
theorem broadcasts (h : s.Kept) (broadcasts : Table Broadcast.id) :
    ({ s with broadcasts } : Dashboard).Kept :=
  ⟨h.consistent, ⟨h.tidy.occupied, h.tidy.limit, h.tidy.watching⟩, h.unborn⟩

theorem finish (h : s.Kept) {b : Broadcast} (hspares : s.sets b.channel b.set ⊆ b.dead →
    s.subscriptions b.channel ≠ some b.set →
      ∀ ws ∈ s.subscribers b.channel, ws ∈ s.clients → ws ∈ b.dead) : (s.finish b).Kept :=
  ⟨h.consistent.finish b hspares, h.tidy.finish b, h.unborn.finish b⟩

theorem step (h : s.Kept) {a : DashboardAct} (hspares : s.SparesNewcomers a)
    (hs : s.step a = some s') : s'.Kept := by
  cases a with
  | request ws =>
    simp only [Dashboard.step] at hs
    split at hs
    · rename_i hpos
      cases hs
      exact h.moveTo nofun fun _ => by simp [hpos.1, HandlerPos.unborn]
    · cases hs
  | prepared ws =>
    simp only [Dashboard.step] at hs
    split at hs
    · rename_i hpos
      cases hs
      exact h.prepared hpos
    · cases hs
  | sent ws =>
    simp only [Dashboard.step] at hs
    split at hs
    · cases hs
      exact h.moveTo nofun nofun
    · cases hs
  | subscribe ws channels =>
    simp only [Dashboard.step] at hs
    split at hs
    · rename_i hpos
      cases hs
      exact (h.handleSubscribe hpos channels).replying ws
    · cases hs
  | unsubscribe ws channels =>
    simp only [Dashboard.step] at hs
    split at hs
    · cases hs
      exact (h.handleUnsubscribe ws channels).replying ws
    · cases hs
  | watch ws jobId =>
    simp only [Dashboard.step] at hs
    split at hs
    · cases hs
      exact h.handleWatchJob ws jobId
    · cases hs
  | watched ws found =>
    simp only [Dashboard.step] at hs
    split at hs
    · rename_i jobId hpos
      cases hs
      exact h.watched hpos found
    · cases hs
  | unwatch ws jobId =>
    simp only [Dashboard.step] at hs
    split at hs
    · cases hs
      exact (h.detach ws _).replying ws
    · cases hs
  | otherAction ws =>
    simp only [Dashboard.step] at hs
    split at hs
    · cases hs
      exact h.replying ws
    · cases hs
  | disconnect ws =>
    simp only [Dashboard.step] at hs
    split at hs <;> cases hs <;> exact h.cleanup ws
  | broadcast id channel feed =>
    simp only [Dashboard.step, broadcastEvent] at hs
    split at hs
    · cases hs
      split
      · exact h
      · exact h.broadcasts _
    · cases hs
  | sendTo id ws ok =>
    obtain ⟨b, -, hs⟩ := Option.bind_eq_some_iff.mp hs
    split at hs
    · cases hs
      exact h.broadcasts _
    · cases hs
  | finish id =>
    obtain ⟨b, hb, hs⟩ := Option.bind_eq_some_iff.mp hs
    split at hs
    · cases hs
      exact h.finish (hspares id b rfl hb)
    · cases hs
  | cancel id =>
    cases hs
    exact h.broadcasts _

end Kept

/-- A step that does not spare newcomers leaves the records in disagreement. -/
theorem Consistent.sparesNewcomers (h : s.Consistent) {a : DashboardAct} (hs : s.step a = some s')
    (h' : s'.Consistent) : s.SparesNewcomers a := by
  rintro id b rfl hb hempty - ws hws hclient
  simp only [Dashboard.step, hb, Option.bind_some] at hs
  split at hs
  · cases hs
    by_contra halive
    exact finish_loses h hempty hws hclient halive h'
  · cases hs

end Dashboard

/-- The records of the dashboard agree, its keys are in use and its clients within their
limit in every state of a run exactly if no broadcast whose own set is empty at its end
pops another set that a connected client has joined. -/
theorem dashboard_consistent (ρ : DashboardRun)
    (hρ : ∃ maxSubscriptions maxClients, ρ.state 0 = .init maxSubscriptions maxClients) :
    (∀ n ≤ ρ.length, (ρ.state n).Sound) ↔
      ∀ n < ρ.length, (ρ.state n).SparesNewcomers (ρ.act n) := by
  obtain ⟨maxSubscriptions, maxClients, h0⟩ := hρ
  constructor
  · exact fun h n hn => (h n hn.le).1.sparesNewcomers (ρ.next n hn) (h (n + 1) hn).1
  · intro h n hn
    have hkept := ρ.invariant_of (P := Dashboard.Kept) h (h0 ▸ .init maxSubscriptions maxClients)
      (fun hs hok hstep => hs.step hok hstep) n hn
    exact ⟨hkept.consistent, hkept.tidy.keysUsed, hkept.tidy.limit⟩

/-- A client's only subscription is being served when it unsubscribes; another client
subscribes, and the broadcast ends. -/
def newcomerActs : List DashboardAct :=
  [.request 0, .prepared 0, .sent 0, .request 1, .prepared 1, .sent 1, .subscribe 0 ["jobs"],
    .sent 0, .broadcast 0 "jobs" .notification, .unsubscribe 0 ["jobs"], .subscribe 1 ["jobs"],
    .sendTo 0 0 true, .finish 0]

def newcomerRun : DashboardRun := .ofList (.init 100 1000) newcomerActs (by decide)

theorem dashboard_drops_newcomer :
    ¬∀ ρ : DashboardRun,
      (∃ maxSubscriptions maxClients, ρ.state 0 = .init maxSubscriptions maxClients) →
        ∀ n ≤ ρ.length, (ρ.state n).Sound := by
  intro h
  have hagree := (h newcomerRun ⟨_, _, rfl⟩ 13 (by decide)).1 1 (by decide) "jobs"
  revert hagree
  decide

/-- The newcomer is spared if the first client stays. -/
def stayingRun : DashboardRun :=
  .ofList (.init 100 1000) (newcomerActs.eraseIdx 9) (by decide)

theorem dashboard_consistent_staying :
    (stayingRun.state 12).subscribers "jobs" = {0, 1} ∧ ∀ n ≤ 12, (stayingRun.state n).Sound := by
  refine ⟨by decide, (dashboard_consistent stayingRun ⟨_, _, rfl⟩).mpr ?_⟩
  have hused : ∀ n < 12, ∀ b ∈ (stayingRun.state n).broadcasts.rows,
      ¬(stayingRun.state n).sets b.channel b.set ⊆ b.dead := by decide
  exact fun n hn id b _ hb hempty => absurd hempty (hused n hn b (Table.find?_eq_some.mp hb).1)

end Pyjobby
