import Pyjobby.Lib.Forest
import Pyjobby.Lib.Search
import Pyjobby.Dedupe

/-! Job graphs: how `DAGBuilder` builds and validates one, and the rows that
`execute` writes for it. -/

namespace Pyjobby

open Relational Disjoint

inductive DagError where
  | identity (jobClass : String)
  | foreign (jobClass dep : String)
  | cycle
  | unready
  | blocked (jobClass : String) (names : List String)
  | key
  | refused (jobClass : String)
  | fuel
  deriving DecidableEq

namespace DagError

def noDagIdentity : String :=
  "identity_key is not a DAG node option: a DAG enqueues its nodes and then " ++
  "stamps dag_id and run_group onto the ids it got back, and an identity " ++
  "that already exists hands back a job this DAG did not create -- so the " ++
  "stamp would STEAL a live job out of its own DAG and rewire it into this " ++
  "one. Enqueue the identified job on its own and have the DAG depend on it."

/-- The text of the ValueError; the last three are no ValueErrors of this module. -/
def message : DagError → Option String
  | identity c => some s!"{c}: {noDagIdentity}"
  | foreign c dep => some s!"Node {c} depends on {dep} which is not in this DAG"
  | cycle => some "DAG contains a cycle - dependencies must be acyclic"
  | unready => some "DAG contains a cycle or invalid dependencies"
  | blocked c names =>
    let members := String.intercalate ", " names
    some (s!"Node {c} shares a dependency with a fan-in " ++
      s!"node it is upstream of, so its wait group would contain " ++
      s!"{members}, which cannot finish until {c} " ++
      "does. Split the shared dependency into separate jobs.")
  | key | refused _ | fuel => none

end DagError

/-- The value a dict built from these assignments holds under a key: the last one. -/
def dict {α β : Type} [DecidableEq α] (entries : List (α × β)) (k : α) : Option β :=
  (entries.reverse.find? fun e => e.1 = k).map Prod.snd

/-- The order in which a set happens to be iterated. -/
structure SetOrder (α : Type) where
  arrange : List α → List α
  perm : ∀ l, (arrange l).Perm l

/-- A graph of jobs; a node stands for its `node_id`, `options` are the columns
that its job class, kwargs and options give. -/
structure Dag (α : Type) where
  nodes : List α
  dependsOn : α → List α
  options : α → NewJob
  nodes_nodup : nodes.Nodup
  deps_nodup : ∀ n, (dependsOn n).Nodup

variable {α : Type} [DecidableEq α]

def distinct : List α → List α → List α
  | seen, [] => seen
  | seen, dep :: deps => distinct (if dep ∈ seen then seen else seen ++ [dep]) deps

theorem distinct_nodup (seen deps : List α) (h : seen.Nodup) : (distinct seen deps).Nodup := by
  induction deps generalizing seen with
  | nil => exact h
  | cons dep deps ih =>
    apply ih
    by_cases hdep : dep ∈ seen
    · simpa [hdep] using h
    · simp only [hdep, if_false]
      exact List.nodup_append.mpr ⟨h, by simp, by grind⟩

namespace Dag

def empty : Dag α where
  nodes := []
  dependsOn _ := []
  options _ := .plain ""
  nodes_nodup := List.nodup_nil
  deps_nodup _ := List.nodup_nil

variable (d : Dag α)

def jobClass (n : α) : String := (d.options n).jobClass

/-- A new node; `_refuse_identity` raises on one that carries an identity key. -/
def add (n : α) (job : NewJob) (deps : List α) (hnew : n ∉ d.nodes) : Except DagError (Dag α) :=
  if job.identityKey.isSome then .error (.identity job.jobClass)
  else
    .ok
      { nodes := d.nodes ++ [n]
        dependsOn := Function.update d.dependsOn n (distinct [] deps)
        options := Function.update d.options n job
        nodes_nodup := List.nodup_append.mpr ⟨d.nodes_nodup, by simp, by grind⟩
        deps_nodup := fun m => by
          by_cases hm : m = n
          · subst hm
            simpa using distinct_nodup [] deps List.nodup_nil
          · simpa [hm] using d.deps_nodup m }

def fanIn : List α := d.nodes.filter fun n => 1 < (d.dependsOn n).length

def spokes (n : α) : List (α × α) :=
  match d.dependsOn n with
  | [] => []
  | first :: rest => rest.map fun dep => (first, dep)

/-- `parent`, after the loop over the fan-in nodes. The finds that follow only
compress paths, which moves no root. -/
def parents : Forest α :=
  (d.fanIn.flatMap d.spokes).foldl (fun f p => f.union p.1 p.2) .discrete

/-- `members[root]`, in DAG order. -/
def members (root : α) : List α :=
  let group := (d.fanIn.flatMap d.dependsOn).filter fun dep => d.parents.root dep = root
  d.nodes.filter fun n => n ∈ group

/-- The group a fan-in node waits for. -/
def waitGroup (n : α) : List α :=
  match d.dependsOn n with
  | [] => []
  | first :: _ => d.members (d.parents.root first)

def dependents (n : α) : List α := d.nodes.filter fun m => n ∈ d.dependsOn m

def downstream (start : α) : Option (List α) :=
  Search.reach d.dependents d.nodes.length ([start], [start])

/-- The members of the node's group that cannot finish until it does. -/
def blocked (n : α) : Option (List α) :=
  (d.downstream n).map fun reached => (d.waitGroup n).filter fun other => other ∈ reached

def checkGroups : List α → Except DagError Unit
  | [] => .ok ()
  | n :: ns =>
    match d.blocked n with
    | none => .error .fuel
    | some [] => checkGroups ns
    | some others => .error (.blocked (d.jobClass n) (others.map d.jobClass))

def dependencyGroups : Except DagError (List (α × List α)) :=
  (d.checkGroups d.fanIn).map fun _ => d.fanIn.map fun n => (n, d.waitGroup n)

def identified : Option α := d.nodes.find? fun n => (d.options n).identityKey.isSome

def foreign : Option (α × α) :=
  d.nodes.findSome? fun n => ((d.dependsOn n).find? fun dep => dep ∉ d.nodes).map
    fun dep => (n, dep)

def hasCycle : Option Bool := Search.sweep d.dependsOn d.nodes.length d.nodes .empty

def validate : Except DagError Unit :=
  match d.identified, d.foreign, d.hasCycle with
  | some n, _, _ => .error (.identity (d.jobClass n))
  | none, some (n, dep), _ => .error (.foreign (d.jobClass n) (d.jobClass dep))
  | none, none, none => .error .fuel
  | none, none, some true => .error .cycle
  | none, none, some false => d.dependencyGroups.map fun _ => ()

/-- `remaining` and `in_degree` of the topological sort. -/
structure Kahn (α : Type) where
  remaining : List α
  inDegree : α → Int

def Kahn.remove (k : Kahn α) (n : α) : Kahn α where
  remaining := k.remaining.erase n
  inDegree other :=
    if other ∈ k.remaining.erase n ∧ n ∈ d.dependsOn other then k.inDegree other - 1
    else k.inDegree other

def levels (order : SetOrder α) : Nat → Kahn α → Except DagError (List (List α))
  | _, ⟨[], _⟩ => .ok []
  | 0, ⟨_ :: _, _⟩ => .error .fuel
  | fuel + 1, ⟨r :: rs, inDegree⟩ =>
    match (order.arrange (r :: rs)).filter fun n => inDegree n = 0 with
    | [] => .error .unready
    | n :: ns =>
      (levels order fuel ((n :: ns).foldl (Kahn.remove d) ⟨r :: rs, inDegree⟩)).map fun rest =>
        (n :: ns) :: rest

def topologicalSort (order : SetOrder α) : Except DagError (List (List α)) :=
  d.levels order d.nodes.length ⟨d.nodes, fun n => (d.dependsOn n).length⟩

end Dag

namespace Db

/-- The plain INSERT inside a caller's transaction, with the refusals of
`enqueue_in_transaction` and of `build_enqueue_row` for keys and dependencies. -/
def enqueueInTransaction (db : Db) (now : Int) (j : NewJob) : Option Db :=
  if j.debounceKey.isSome || j.keyRefusal.isSome then none else db.enqueue now j

/-- `UPDATE jorb SET run_group = $1 WHERE id = ANY($2)`. -/
def setRunGroup (db : Db) (gid : Nat) (ids : List Nat) : Db :=
  { db with
    jorb := db.jorb.update (fun r => r.id ∈ ids)
      ⟨fun r => { r with runGroup := some gid }, fun _ => rfl⟩ }

end Db

/-- What `execute` has created so far. A group is named by its first member, its
id is that of whichever member is created first. -/
structure Wiring (α : Type) where
  db : Db
  nodeToJob : List (α × Nat)
  groupId : List (α × Nat)
  groupMembers : List (α × Nat)

namespace Wiring

variable (w : Wiring α)

/-- Puts the job of a new node on record with its group. -/
def record (member_of : Option α) (n : α) (id : Nat) (db : Db) : Wiring α :=
  match member_of with
  | none => { w with db := db, nodeToJob := w.nodeToJob ++ [(n, id)] }
  | some k =>
    { db := db
      nodeToJob := w.nodeToJob ++ [(n, id)]
      groupId := if (dict w.groupId k).isSome then w.groupId else w.groupId ++ [(k, id)]
      groupMembers := w.groupMembers ++ [(k, id)] }

def memberIds (k : α) : List Nat := (w.groupMembers.filter fun e => e.1 = k).map Prod.snd

/-- The updates of `run_group`, once every job exists. -/
def stamp : Db := w.groupId.foldl (fun db e => db.setRunGroup e.2 (w.memberIds e.1)) w.db

end Wiring

namespace Dag

variable (d : Dag α)

/-- `group_key`: the first member of the group that a node belongs to. -/
def groupKey (groups : List (α × List α)) : α → Option α :=
  dict (groups.flatMap fun g =>
    match g.2 with
    | [] => []
    | key :: _ => g.2.map fun member => (member, key))

/-- The job of a node with the dependency column `execute` gives it. -/
def wired (key : α → Option α) (w : Wiring α) (n : α) : Option NewJob :=
  match d.dependsOn n with
  | [] => some (d.options n)
  | [dep] =>
    (dict w.nodeToJob dep).map fun (id : Nat) => { d.options n with waitforJob := some (id : Int) }
  | dep :: _ :: _ =>
    ((key dep).bind (dict w.groupId)).map fun (gid : Nat) =>
      { d.options n with waitforGroup := some (gid : Int) }

def place (key : α → Option α) (now : Int) (w : Wiring α) (n : α) : Except DagError (Wiring α) :=
  match d.wired key w n with
  | none => .error .key
  | some job =>
    match w.db.enqueueInTransaction now job with
    | none => .error (.refused job.jobClass)
    | some db => .ok (w.record (key n) n w.db.jorb.next db)

def placeAll (key : α → Option α) (now : Int) : Wiring α → List α → Except DagError (Wiring α)
  | w, [] => .ok w
  | w, n :: ns => (d.place key now w n).bind fun w' => placeAll key now w' ns

/-- The tables after the transaction, and the job of each node. -/
def execute (order : SetOrder α) (now : Int) (db : Db) : Except DagError (Db × List (α × Nat)) := do
  d.validate
  let levels ← d.topologicalSort order
  let waitGroups ← d.dependencyGroups
  let w ← d.placeAll (groupKey waitGroups) now ⟨db, [], [], []⟩ levels.flatten
  return (w.stamp, w.nodeToJob)

end Dag

end Pyjobby
