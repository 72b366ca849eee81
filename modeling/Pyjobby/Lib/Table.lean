import Mathlib.Data.List.Basic
import Mathlib.Data.List.Nodup
import Mathlib.Data.List.Perm.Subperm
import Mathlib.Data.List.Sort

/-! Finite tables under a primary key, and tables whose key is handed out by
a counter. An operation maps every row to a row of the same key or drops it,
so keys stay unique by construction. -/

namespace Relational

variable {R K : Type*}

/-- A finite table: its rows in insertion order, no two with one key. -/
structure Table (key : R → K) where
  rows : List R
  nodup : (rows.map key).Nodup

/-- A change of rows that leaves their key alone. -/
structure Rewrite (key : R → K) where
  set : R → R
  key_set : ∀ r, key (set r) = key r

def Rewrite.same {key : R → K} : Rewrite key := ⟨id, fun _ => rfl⟩

namespace Table

variable {key : R → K}

instance : Membership R (Table key) := ⟨fun t r => r ∈ t.rows⟩

theorem mem_rows {t : Table key} {r : R} : r ∈ t.rows ↔ r ∈ t := Iff.rfl

@[ext]
theorem ext {t u : Table key} (h : t.rows = u.rows) : t = u := by
  cases t
  cases u
  simpa using h

def empty : Table key := ⟨[], by simp⟩

@[simp]
theorem not_mem_empty {r : R} : r ∉ (empty : Table key) := by
  simp [← mem_rows, empty]

theorem eq_of_key {t : Table key} {r s : R} (hr : r ∈ t) (hs : s ∈ t) (h : key r = key s) :
    r = s :=
  List.inj_on_of_nodup_map t.nodup hr hs h

/-- `UPDATE .. SET u WHERE p`. -/
def update (t : Table key) (p : R → Bool) (u : Rewrite key) : Table key where
  rows := t.rows.map fun r => if p r then u.set r else r
  nodup := by
    have hkey : (key ∘ fun r => if p r then u.set r else r) = key := by
      funext r
      by_cases h : p r <;> simp [h, u.key_set]
    simpa [List.map_map, hkey] using t.nodup

theorem mem_update {t : Table key} {p : R → Bool} {u : Rewrite key} {r' : R} :
    r' ∈ t.update p u ↔ ∃ r ∈ t, (if p r then u.set r else r) = r' := by
  simp [← mem_rows, update]

theorem update_mem {t : Table key} {p : R → Bool} {u : Rewrite key} {r : R} (h : r ∈ t) :
    (if p r then u.set r else r) ∈ t.update p u :=
  mem_update.mpr ⟨r, h, rfl⟩

theorem update_eq_self {t : Table key} {p : R → Bool} {u : Rewrite key}
    (h : ∀ r ∈ t, p r = false) : t.update p u = t := by
  ext1
  calc (t.update p u).rows = t.rows.map id :=
        List.map_congr_left fun r hr => by simp [h r hr]
    _ = t.rows := List.map_id _

/-- `DELETE .. WHERE p`. -/
def delete (t : Table key) (p : R → Bool) : Table key where
  rows := t.rows.filter fun r => !p r
  nodup := t.nodup.sublist (List.filter_sublist.map key)

@[simp]
theorem mem_delete {t : Table key} {p : R → Bool} {r : R} :
    r ∈ t.delete p ↔ r ∈ t ∧ p r = false := by
  simp [← mem_rows, delete]

/-- `SELECT count(*) .. WHERE p`. -/
def count (t : Table key) (p : R → Bool) : Nat := t.rows.countP p

theorem length_le_count {A : Type*} {t : Table key} {p : R → Bool} {items : List A} {f : A → K}
    (hnd : (items.map f).Nodup) (h : ∀ a ∈ items, ∃ r ∈ t, p r ∧ key r = f a) :
    items.length ≤ t.count p := by
  have hsub : items.map f ⊆ (t.rows.filter p).map key := by
    intro k hk
    obtain ⟨a, ha, rfl⟩ := List.mem_map.mp hk
    obtain ⟨r, hr, hp, hkey⟩ := h a ha
    exact List.mem_map.mpr ⟨r, List.mem_filter.mpr ⟨hr, hp⟩, hkey⟩
  calc items.length = (items.map f).length := (List.length_map f).symm
    _ ≤ ((t.rows.filter p).map key).length := (hnd.subperm hsub).length_le
    _ = t.count p := by rw [List.length_map, ← List.countP_eq_length_filter]; rfl

theorem count_le_of_keys {t u : Table key} {p q : R → Bool}
    (h : ∀ r' ∈ u, q r' → ∃ r ∈ t, p r ∧ key r = key r') : u.count q ≤ t.count p := by
  have hnd : ((u.rows.filter q).map key).Nodup := u.nodup.sublist (List.filter_sublist.map key)
  calc u.count q = (u.rows.filter q).length := List.countP_eq_length_filter
    _ ≤ t.count p := length_le_count hnd fun r' hr' => by
      obtain ⟨hmem, hq⟩ := List.mem_filter.mp hr'
      exact h r' hmem hq

variable [DecidableEq K]

def find? (t : Table key) (k : K) : Option R := t.rows.find? fun r => key r = k

theorem find?_eq_some {t : Table key} {k : K} {r : R} :
    t.find? k = some r ↔ r ∈ t ∧ key r = k := by
  constructor
  · intro h
    exact ⟨List.mem_of_find?_eq_some h, by simpa using List.find?_some h⟩
  · rintro ⟨hr, rfl⟩
    obtain ⟨s, hs⟩ : ∃ s, t.find? (key r) = some s := by
      rw [← Option.isSome_iff_exists]
      exact List.find?_isSome.mpr ⟨r, hr, by simp⟩
    have hkey : key s = key r := by simpa using List.find?_some hs
    rw [hs, eq_of_key (List.mem_of_find?_eq_some hs) hr hkey]

theorem find?_eq_none {t : Table key} {k : K} : t.find? k = none ↔ ∀ r ∈ t, key r ≠ k := by
  simp [find?, ← mem_rows]

theorem find?_self {t : Table key} {r : R} (h : r ∈ t) : t.find? (key r) = some r :=
  find?_eq_some.mpr ⟨h, rfl⟩

theorem filter_key (t : Table key) (k : K) :
    t.rows.filter (fun r => key r = k) = (t.find? k).toList := by
  have hnd : (t.rows.filter fun r => key r = k).Nodup :=
    (List.Nodup.of_map key t.nodup).filter _
  cases h : t.find? k with
  | none =>
    simpa [List.filter_eq_nil_iff, mem_rows] using find?_eq_none.mp h
  | some r =>
    obtain ⟨hr, hkey⟩ := find?_eq_some.mp h
    refine List.perm_singleton.mp ((List.perm_ext_iff_of_nodup hnd (by simp)).mpr fun s => ?_)
    simp only [List.mem_filter, List.mem_singleton, decide_eq_true_eq]
    constructor
    · rintro ⟨hs, hk⟩
      exact eq_of_key hs hr (hk.trans hkey.symm)
    · rintro rfl
      exact ⟨hr, hkey⟩

theorem find?_update (t : Table key) (p : R → Bool) (u : Rewrite key) (k : K) :
    (t.update p u).find? k = (t.find? k).map fun r => if p r then u.set r else r := by
  cases h : t.find? k with
  | none =>
    refine find?_eq_none.mpr fun r' hr' => ?_
    obtain ⟨r, hr, rfl⟩ := mem_update.mp hr'
    have := find?_eq_none.mp h r hr
    by_cases hp : p r <;> simpa [hp, u.key_set] using this
  | some r =>
    obtain ⟨hr, rfl⟩ := find?_eq_some.mp h
    refine find?_eq_some.mpr ⟨update_mem hr, ?_⟩
    by_cases hp : p r <;> simp [hp, u.key_set]

theorem count_update_key_le (t : Table key) (k : K) (q : R → Bool) (u : Rewrite key) :
    (t.update (fun r => key r = k) u).count q ≤ t.count q + 1 := by
  suffices h : ∀ rows : List R, (rows.map key).Nodup →
      (rows.map fun r => if key r = k then u.set r else r).countP q ≤ rows.countP q + 1 by
    simpa [count, update] using h t.rows t.nodup
  intro rows
  induction rows with
  | nil => simp
  | cons r rows ih =>
    intro hnd
    obtain ⟨hr, hnd'⟩ := List.nodup_cons.mp hnd
    by_cases hk : key r = k
    · have hid : (rows.map fun s => if key s = k then u.set s else s) = rows := by
        refine (List.map_congr_left fun s hs => ?_).trans (List.map_id _)
        have : key s ≠ k := fun h => hr (hk.trans h.symm ▸ List.mem_map_of_mem hs)
        simp [this]
      simp only [List.map_cons, hk, if_true, hid, List.countP_cons]
      split <;> omega
    · have := ih hnd'
      simp only [List.map_cons, hk, if_false, List.countP_cons]
      omega

/-- `INSERT .. ON CONFLICT (key) DO UPDATE SET u`. -/
def upsert (t : Table key) (r : R) (u : Rewrite key) : Table key :=
  if h : (t.find? (key r)).isSome then t.update (fun s => key s = key r) u
  else
    { rows := t.rows ++ [r]
      nodup := by
        have hfree : ∀ s ∈ t.rows, key s ≠ key r :=
          find?_eq_none.mp (by simpa using h)
        simp only [List.map_append, List.map_cons, List.map_nil]
        refine List.nodup_append.mpr ⟨t.nodup, by simp, ?_⟩
        simp only [List.mem_map, List.mem_singleton]
        rintro _ ⟨s, hs, rfl⟩ _ rfl
        exact hfree s hs }

theorem rows_upsert_of_none {t : Table key} {r : R} {u : Rewrite key}
    (h : t.find? (key r) = none) : (t.upsert r u).rows = t.rows ++ [r] := by
  unfold upsert
  rw [dif_neg (by simp [h])]

theorem rows_foldl_upsert {t : Table key} {rows : List R} {u : Rewrite key}
    (hnd : (rows.map key).Nodup) (hfree : ∀ r ∈ rows, t.find? (key r) = none) :
    (rows.foldl (fun t r => t.upsert r u) t).rows = t.rows ++ rows := by
  induction rows generalizing t with
  | nil => simp
  | cons r rows ih =>
    obtain ⟨hr, hnd⟩ := List.nodup_cons.mp hnd
    obtain ⟨hrfree, hfree⟩ := List.forall_mem_cons.mp hfree
    have hrows := rows_upsert_of_none (u := u) hrfree
    rw [List.foldl_cons, ih hnd, hrows, List.append_assoc, List.singleton_append]
    intro s hs
    refine find?_eq_none.mpr fun s' hs' hkey => ?_
    have hmem : s' ∈ t.rows ++ [r] := hrows ▸ hs'
    rcases List.mem_append.mp hmem with hold | hnew
    · exact find?_eq_none.mp (hfree s hs) s' hold hkey
    · obtain rfl := List.mem_singleton.mp hnew
      exact hr (hkey ▸ List.mem_map_of_mem hs)

theorem find?_upsert_self (t : Table key) (r : R) (u : Rewrite key) :
    (t.upsert r u).find? (key r) = some ((t.find? (key r)).elim r u.set) := by
  unfold upsert
  split
  · rename_i h
    obtain ⟨s, hs⟩ := Option.isSome_iff_exists.mp h
    simp [find?_update, hs, (find?_eq_some.mp hs).2]
  · rename_i h
    have hnone : t.find? (key r) = none := by simpa using h
    rw [hnone]
    exact find?_eq_some.mpr ⟨by simp [← mem_rows], rfl⟩

theorem find?_upsert_of_ne {t : Table key} {r : R} {u : Rewrite key} {k : K} (h : k ≠ key r) :
    (t.upsert r u).find? k = t.find? k := by
  unfold upsert
  split
  · rw [find?_update]
    cases hk : t.find? k with
    | none => rfl
    | some s =>
      have : key s ≠ key r := fun e => h ((find?_eq_some.mp hk).2.symm.trans e)
      simp [this]
  · simp only [find?, List.find?_append]
    cases hk : t.rows.find? fun s => key s = k with
    | none => simp [h.symm]
    | some s => rfl

theorem mem_upsert {t : Table key} {r s : R} {u : Rewrite key} (h : s ∈ t.upsert r u) :
    s ∈ t ∨ s = r ∨ ∃ old ∈ t, key old = key r ∧ s = u.set old := by
  unfold upsert at h
  split at h
  · obtain ⟨old, hold, rfl⟩ := mem_update.mp h
    by_cases hk : key old = key r
    · exact .inr (.inr ⟨old, hold, hk, by simp [hk]⟩)
    · exact .inl (by simpa [hk] using hold)
  · rcases List.mem_append.mp h with h | h
    · exact .inl h
    · exact .inr (.inl (List.mem_singleton.mp h))

def put (t : Table key) (r : R) : Table key :=
  t.upsert r ⟨fun s => if key s = key r then r else s, fun s => by split <;> simp_all⟩

theorem find?_put_self (t : Table key) (r : R) : (t.put r).find? (key r) = some r := by
  rw [put, find?_upsert_self]
  cases h : t.find? (key r) with
  | none => rfl
  | some s => simp [(find?_eq_some.mp h).2]

theorem find?_put_of_ne {t : Table key} {r : R} {k : K} (h : k ≠ key r) :
    (t.put r).find? k = t.find? k :=
  find?_upsert_of_ne h

theorem mem_put {t : Table key} {r s : R} :
    s ∈ t.put r ↔ s = r ∨ s ∈ t ∧ key s ≠ key r := by
  by_cases hk : key s = key r
  · constructor
    · intro hs
      have hfind := find?_put_self t r
      rw [← hk, find?_self hs] at hfind
      exact .inl (Option.some.inj hfind)
    · rintro (rfl | ⟨-, h⟩)
      · exact (find?_eq_some.mp (find?_put_self t s)).1
      · exact absurd hk h
  · have hfind : (t.put r).find? (key s) = t.find? (key s) := find?_put_of_ne hk
    constructor
    · intro hs
      rw [find?_self hs] at hfind
      exact .inr ⟨(find?_eq_some.mp hfind.symm).1, hk⟩
    · rintro (rfl | ⟨hs, -⟩)
      · exact absurd rfl hk
      · rw [find?_self hs] at hfind
        exact (find?_eq_some.mp hfind).1

theorem find?_delete {t : Table key} {p : R → Bool} {k : K} :
    (t.delete p).find? k = (t.find? k).filter fun r => !p r := by
  cases h : t.find? k with
  | none =>
    exact find?_eq_none.mpr fun r hr => find?_eq_none.mp h r (mem_delete.mp hr).1
  | some r =>
    obtain ⟨hr, hk⟩ := find?_eq_some.mp h
    by_cases hp : p r
    · simp only [Option.filter, hp]
      refine find?_eq_none.mpr fun s hs hsk => ?_
      obtain ⟨hs, hsp⟩ := mem_delete.mp hs
      rw [eq_of_key hs hr (hsk.trans hk.symm), hp] at hsp
      exact absurd hsp (by simp)
    · simp only [Option.filter, hp]
      exact find?_eq_some.mpr ⟨mem_delete.mpr ⟨hr, by simpa using hp⟩, hk⟩

theorem find?_delete_of_key {t : Table key} {p : R → Bool} {k : K}
    (h : ∀ r, key r = k → p r = false) : (t.delete p).find? k = t.find? k := by
  rw [find?_delete]
  cases hk : t.find? k with
  | none => rfl
  | some r => simp [Option.filter, h r (find?_eq_some.mp hk).2]

end Table

/-- A table whose key is an identity column: every row's id was handed out by
the counter `next`, in increasing order, and is never handed out again. -/
structure Serial (ident : R → Nat) extends Table ident where
  next : Nat
  sorted : (rows.map ident).Pairwise (· < ·)
  fresh : ∀ r ∈ rows, ident r < next

namespace Serial

variable {ident : R → Nat}

instance : Membership R (Serial ident) := ⟨fun t r => r ∈ t.rows⟩

theorem mem_rows {t : Serial ident} {r : R} : r ∈ t.rows ↔ r ∈ t := Iff.rfl

theorem ext {t u : Serial ident} (h : t.toTable = u.toTable) (hn : t.next = u.next) : t = u := by
  cases t
  cases u
  cases h
  cases hn
  rfl

theorem lt_next {t : Serial ident} {r : R} (h : r ∈ t) : ident r < t.next := t.fresh r h

theorem eq_of_ident {t : Serial ident} {r s : R} (hr : r ∈ t) (hs : s ∈ t)
    (h : ident r = ident s) : r = s :=
  Table.eq_of_key (t := t.toTable) hr hs h

def empty (first : Nat) : Serial ident :=
  ⟨Table.empty, first, by simp [Table.empty], by simp [Table.empty]⟩

theorem not_mem_empty {first : Nat} {r : R} : r ∉ (empty first : Serial ident) :=
  Table.not_mem_empty

def update (t : Serial ident) (p : R → Bool) (u : Rewrite ident) : Serial ident where
  toTable := t.toTable.update p u
  next := t.next
  sorted := by
    have hkey : (ident ∘ fun r => if p r then u.set r else r) = ident := by
      funext r
      by_cases h : p r <;> simp [h, u.key_set]
    simpa [Table.update, List.map_map, hkey] using t.sorted
  fresh := by
    intro r' hr'
    obtain ⟨r, hr, rfl⟩ := Table.mem_update.mp hr'
    by_cases h : p r <;> simpa [h, u.key_set] using t.fresh r hr

@[simp]
theorem next_update (t : Serial ident) (p : R → Bool) (u : Rewrite ident) :
    (t.update p u).next = t.next := rfl

theorem mem_update {t : Serial ident} {p : R → Bool} {u : Rewrite ident} {r' : R} :
    r' ∈ t.update p u ↔ ∃ r ∈ t, (if p r then u.set r else r) = r' :=
  Table.mem_update (t := t.toTable)

theorem eq_of_mem_update {t : Serial ident} {p : R → Bool} {u : Rewrite ident} {r r' : R}
    (hr : r ∈ t) (hr' : r' ∈ t.update p u) (h : ident r' = ident r) :
    r' = if p r then u.set r else r := by
  obtain ⟨s, hs, rfl⟩ := mem_update.mp hr'
  have hkey : ident (if p s then u.set s else s) = ident s := by
    split
    · exact u.key_set s
    · rfl
  rw [eq_of_ident hs hr (hkey.symm.trans h)]

theorem update_eq_self {t : Serial ident} {p : R → Bool} {u : Rewrite ident}
    (h : ∀ r ∈ t, p r = false) : t.update p u = t :=
  ext (Table.update_eq_self h) rfl

def delete (t : Serial ident) (p : R → Bool) : Serial ident where
  toTable := t.toTable.delete p
  next := t.next
  sorted := t.sorted.sublist (List.filter_sublist.map ident)
  fresh := fun r hr => t.fresh r (Table.mem_delete.mp hr).1

@[simp]
theorem next_delete (t : Serial ident) (p : R → Bool) : (t.delete p).next = t.next := rfl

@[simp]
theorem mem_delete {t : Serial ident} {p : R → Bool} {r : R} :
    r ∈ t.delete p ↔ r ∈ t ∧ p r = false :=
  Table.mem_delete (t := t.toTable)

/-- `INSERT`, the identity column assigned by the counter. -/
def insert (t : Serial ident) (mk : Nat → R) (h : ∀ n, ident (mk n) = n) : Serial ident where
  rows := t.rows ++ [mk t.next]
  next := t.next + 1
  nodup := by
    simp only [List.map_append, List.map_cons, List.map_nil, h]
    refine List.nodup_append.mpr ⟨t.nodup, by simp, ?_⟩
    simp only [List.mem_map, List.mem_singleton]
    rintro _ ⟨r, hr, rfl⟩ _ rfl
    exact Nat.ne_of_lt (t.fresh r hr)
  sorted := by
    simp only [List.map_append, List.map_cons, List.map_nil, h]
    refine List.pairwise_append.mpr ⟨t.sorted, by simp, ?_⟩
    simp only [List.mem_map, List.mem_singleton]
    rintro _ ⟨r, hr, rfl⟩ _ rfl
    exact t.fresh r hr
  fresh := by
    intro r hr
    rcases List.mem_append.mp hr with hr | hr
    · exact Nat.lt_succ_of_lt (t.fresh r hr)
    · rw [List.mem_singleton.mp hr, h]
      exact Nat.lt_succ_self _

@[simp]
theorem next_insert (t : Serial ident) (mk : Nat → R) (h : ∀ n, ident (mk n) = n) :
    (t.insert mk h).next = t.next + 1 := rfl

@[simp]
theorem mem_insert {t : Serial ident} {mk : Nat → R} {h : ∀ n, ident (mk n) = n} {r : R} :
    r ∈ t.insert mk h ↔ r ∈ t ∨ r = mk t.next := by
  simp [← mem_rows, insert]

theorem mem_insert_of_mem {t : Serial ident} {mk : Nat → R} {h : ∀ n, ident (mk n) = n} {r : R}
    (hr : r ∈ t) : r ∈ t.insert mk h :=
  mem_insert.mpr (.inl hr)

theorem pairwise_orderedInsert {xs : List Nat} {x : Nat} (hxs : xs.Pairwise (· < ·))
    (hx : x ∉ xs) : (xs.orderedInsert (· ≤ ·) x).Pairwise (· < ·) := by
  have hle : (xs.orderedInsert (· ≤ ·) x).Pairwise (· ≤ ·) :=
    (hxs.imp Nat.le_of_lt).orderedInsert x xs
  have hnd : (xs.orderedInsert (· ≤ ·) x).Nodup :=
    (List.perm_orderedInsert _ x xs).nodup_iff.mpr (List.nodup_cons.mpr ⟨hx, hxs.imp Nat.ne_of_lt⟩)
  exact hle.imp₂ (fun _ _ => Nat.lt_of_le_of_ne) hnd

/-- The counter hands out an id for a row that is not there yet. -/
def reserve (t : Serial ident) : Serial ident where
  toTable := t.toTable
  next := t.next + 1
  sorted := t.sorted
  fresh r hr := Nat.lt_succ_of_lt (t.fresh r hr)

/-- A row whose id was handed out before takes its place in the order of the ids. -/
def publish (t : Serial ident) (r : R) : Option (Serial ident) :=
  if h : ident r < t.next ∧ ∀ s ∈ t.rows, ident s ≠ ident r then
    have hkeys : (t.rows.orderedInsert (fun s u => ident s ≤ ident u) r).map ident =
        (t.rows.map ident).orderedInsert (· ≤ ·) (ident r) :=
      List.map_orderedInsert _ _ ident t.rows r (fun _ _ => Iff.rfl) fun _ _ => Iff.rfl
    have hsorted : ((t.rows.orderedInsert (fun s u => ident s ≤ ident u) r).map ident).Pairwise
        (· < ·) := by
      rw [hkeys]
      refine pairwise_orderedInsert t.sorted fun hmem => ?_
      obtain ⟨s, hs, heq⟩ := List.mem_map.mp hmem
      exact h.2 s hs heq
    some
      { rows := t.rows.orderedInsert (fun s u => ident s ≤ ident u) r
        next := t.next
        nodup := hsorted.imp Nat.ne_of_lt
        sorted := hsorted
        fresh := by
          intro s hs
          rcases (List.mem_orderedInsert _).mp hs with rfl | hs
          · exact h.1
          · exact t.fresh s hs }
  else none

theorem publish_eq_some {t u : Serial ident} {r : R} (h : t.publish r = some u) :
    (∀ s, s ∈ u ↔ s = r ∨ s ∈ t) ∧ u.next = t.next ∧ ident r < t.next ∧
      ∀ s ∈ t, ident s ≠ ident r := by
  unfold publish at h
  split at h
  · rename_i hfree
    cases h
    exact ⟨fun s => List.mem_orderedInsert _, rfl, hfree⟩
  · cases h

def find? (t : Serial ident) (i : Nat) : Option R := t.toTable.find? i

theorem find?_eq_some {t : Serial ident} {i : Nat} {r : R} :
    t.find? i = some r ↔ r ∈ t ∧ ident r = i :=
  Table.find?_eq_some (t := t.toTable)

theorem find?_self {t : Serial ident} {r : R} (h : r ∈ t) : t.find? (ident r) = some r :=
  find?_eq_some.mpr ⟨h, rfl⟩

theorem find?_next (t : Serial ident) : t.find? t.next = none :=
  Option.eq_none_iff_forall_ne_some.mpr fun _ hr =>
    let ⟨hmem, hid⟩ := find?_eq_some.mp hr
    Nat.ne_of_lt (lt_next hmem) hid

end Serial

end Relational
