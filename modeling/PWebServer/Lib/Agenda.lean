import Mathlib.Data.List.TakeWhile
import Mathlib.Order.Lattice

/-!
# Lib.Agenda

Queues of names with keys.  The entries stand in the order of their keys, those
with the same key in the order in which they came, and a name stands in a queue
at most once.
-/

/-- A stable queue. -/
@[ext] structure Agenda (κ ν : Type*) [LinearOrder κ] where
  entries : List (κ × ν)
  sorted : entries.Pairwise fun a b => a.1 ≤ b.1
  nodup : (entries.map Prod.snd).Nodup

namespace Agenda

variable {κ ν : Type*} [LinearOrder κ]

/-! ## placing an entry -/

/-- An entry is put behind those with keys up to its own. -/
def place (k : κ) (v : ν) (xs : List (κ × ν)) : List (κ × ν) :=
  xs.takeWhile (fun e => e.1 ≤ k) ++ (k, v) :: xs.dropWhile fun e => e.1 ≤ k

/-- There is one such place. -/
theorem place_append {k : κ} {l r : List (κ × ν)} (hl : ∀ e ∈ l, e.1 ≤ k) (hr : ∀ e ∈ r, k < e.1) (v : ν) :
    place k v (l ++ r) = l ++ (k, v) :: r := by
  have hl' : ∀ e ∈ l, decide (e.1 ≤ k) = true := fun e he => decide_eq_true (hl e he)
  rw [place, List.takeWhile_append_of_pos hl', List.dropWhile_append_of_pos hl']
  cases r with
  | nil => simp
  | cons e r =>
      have he : ¬e.1 ≤ k := not_le.mpr (hr e List.mem_cons_self)
      simp [he]

theorem mem_place {k : κ} {v : ν} {xs : List (κ × ν)} {e : κ × ν} :
    e ∈ place k v xs ↔ e = (k, v) ∨ e ∈ xs := by
  have hxs := List.takeWhile_append_dropWhile (p := fun e : κ × ν => decide (e.1 ≤ k)) (l := xs)
  rw [place, List.mem_append, List.mem_cons, or_left_comm, ← List.mem_append, hxs]

/-- What is behind the first entry with a greater key has greater keys, too. -/
theorem lt_of_mem_dropWhile {k : κ} {xs : List (κ × ν)} (hxs : xs.Pairwise fun a b => a.1 ≤ b.1) {e : κ × ν}
    (he : e ∈ xs.dropWhile fun e => e.1 ≤ k) : k < e.1 := by
  induction xs with
  | nil => simp at he
  | cons x xs ih =>
      obtain ⟨hx, hrest⟩ := List.pairwise_cons.mp hxs
      by_cases hle : x.1 ≤ k
      · exact ih hrest (by simpa [hle] using he)
      · have hlt := not_le.mp hle
        rw [List.dropWhile_cons_of_neg (by simpa using hle)] at he
        obtain rfl | he := List.mem_cons.mp he
        · exact hlt
        · exact lt_of_lt_of_le hlt (hx e he)

theorem le_of_mem_takeWhile {k : κ} {xs : List (κ × ν)} {e : κ × ν} (he : e ∈ xs.takeWhile fun e => e.1 ≤ k) :
    e.1 ≤ k := by
  have hle := List.mem_takeWhile_imp he
  simpa using hle

theorem place_sorted {k : κ} {xs : List (κ × ν)} (hxs : xs.Pairwise fun a b => a.1 ≤ b.1) (v : ν) :
    (place k v xs).Pairwise fun a b => a.1 ≤ b.1 := by
  have hsplit : (xs.takeWhile (fun e => e.1 ≤ k) ++ xs.dropWhile fun e => e.1 ≤ k).Pairwise fun a b => a.1 ≤ b.1 := by
    rwa [List.takeWhile_append_dropWhile]
  obtain ⟨hl, hr, hlr⟩ := List.pairwise_append.mp hsplit
  refine List.pairwise_append.mpr ⟨hl, List.pairwise_cons.mpr ⟨fun e he => ?_, hr⟩, fun a ha b hb => ?_⟩
  · exact le_of_lt (lt_of_mem_dropWhile hxs he)
  · obtain rfl | hb := List.mem_cons.mp hb
    · exact le_of_mem_takeWhile ha
    · exact hlr a ha b hb

theorem place_perm (k : κ) (v : ν) (xs : List (κ × ν)) : (place k v xs).Perm ((k, v) :: xs) := by
  have hxs := List.takeWhile_append_dropWhile (p := fun e : κ × ν => decide (e.1 ≤ k)) (l := xs)
  have hperm : (place k v xs).Perm ((k, v) :: (xs.takeWhile (fun e => e.1 ≤ k) ++ xs.dropWhile fun e => e.1 ≤ k)) :=
    List.perm_middle
  rwa [hxs] at hperm

/-! ## operations -/

/-- The empty queue. -/
def empty : Agenda κ ν := ⟨[], .nil, .nil⟩

section

variable [DecidableEq ν] (q : Agenda κ ν)

/-- A name is taken out. -/
def erase (v : ν) : Agenda κ ν where
  entries := q.entries.filter fun e => e.2 ≠ v
  sorted := q.sorted.filter _
  nodup := (List.filter_sublist.map _).nodup q.nodup

@[simp] theorem mem_erase {v : ν} {e : κ × ν} : e ∈ (q.erase v).entries ↔ e ∈ q.entries ∧ e.2 ≠ v := by
  simp [erase]

/-- A name gets a new key, and stands behind all others that have it. -/
def insert (k : κ) (v : ν) : Agenda κ ν where
  entries := place k v (q.erase v).entries
  sorted := place_sorted (q.erase v).sorted v
  nodup := by
    have hv : v ∉ (q.erase v).entries.map Prod.snd := by
      rw [List.mem_map]
      rintro ⟨e, he, rfl⟩
      exact ((q.mem_erase).mp he).2 rfl
    exact ((place_perm k v _).map Prod.snd).nodup_iff.mpr (List.nodup_cons.mpr ⟨hv, (q.erase v).nodup⟩)

@[simp] theorem mem_insert {k : κ} {v : ν} {e : κ × ν} :
    e ∈ (q.insert k v).entries ↔ e = (k, v) ∨ e ∈ q.entries ∧ e.2 ≠ v := by
  rw [insert, mem_place, mem_erase]

/-- The key of a name. -/
def key (v : ν) : Option κ := (q.entries.find? fun e => e.2 = v).map Prod.fst

/-- A name has one key. -/
theorem key_eq_some {v : ν} {k : κ} : q.key v = some k ↔ (k, v) ∈ q.entries := by
  obtain ⟨xs, hsorted, hnodup⟩ := q
  dsimp only [key]
  clear hsorted
  induction xs with
  | nil => simp
  | cons x xs ih =>
      obtain ⟨hx, hnodup⟩ := List.nodup_cons.mp hnodup
      by_cases hv : x.2 = v
      · have hnot : (k, v) ∉ xs := fun hmem => hx (List.mem_map.mpr ⟨(k, v), hmem, hv.symm⟩)
        obtain ⟨k', v'⟩ := x
        obtain rfl : v' = v := hv
        simp [hnot, eq_comm]
      · rw [List.find?_cons_of_neg (by simpa using hv), ih hnodup, List.mem_cons]
        refine (or_iff_right fun heq => hv ?_).symm
        rw [← heq]

theorem key_eq_none {v : ν} : q.key v = none ↔ ∀ e ∈ q.entries, e.2 ≠ v := by
  simp [key, List.find?_eq_none]

end

/-- The first entry is taken out. -/
def pop (q : Agenda κ ν) : Agenda κ ν where
  entries := q.entries.tail
  sorted := q.sorted.tail
  nodup := by
    rw [List.map_tail]
    exact q.nodup.tail

/-- Nothing has a key before that of the first entry. -/
theorem first_le {q : Agenda κ ν} {e : κ × ν} (he : e ∈ q.entries.head?) {e' : κ × ν} (he' : e' ∈ q.entries) :
    e.1 ≤ e'.1 := by
  obtain ⟨rest, hcons⟩ := List.head?_eq_some_iff.mp he
  have hsorted := q.sorted
  rw [hcons] at he' hsorted
  obtain rfl | he' := List.mem_cons.mp he'
  · exact le_rfl
  · exact (List.pairwise_cons.mp hsorted).1 e' he'

/-- The first entry is out of the queue. -/
theorem erase_first [DecidableEq ν] {q : Agenda κ ν} {e : κ × ν} (he : e ∈ q.entries.head?) : q.erase e.2 = q.pop := by
  obtain ⟨rest, hcons⟩ := List.head?_eq_some_iff.mp he
  have hnodup := q.nodup
  rw [hcons, List.map_cons, List.nodup_cons] at hnodup
  have hrest : rest.filter (fun a => a.2 ≠ e.2) = rest := List.filter_eq_self.mpr fun a ha =>
    decide_eq_true fun heq => hnodup.1 (List.mem_map.mpr ⟨a, ha, heq⟩)
  refine Agenda.ext ?_
  change q.entries.filter (fun a => a.2 ≠ e.2) = q.entries.tail
  rw [hcons, List.filter_cons_of_neg (by simp), hrest, List.tail_cons]

end Agenda
