import Mathlib

/-!
# Ordered maps with bulk operations

A library of ordered maps offers whole-batch insertion, deletion and difference. What a client sees of
a map are its entries in key order; `Lawful` says how the operations act on them as on a partial
function of the key. Sorted entry lists are such a library.
-/

/-- Ordered maps of type `M` from keys `κ` to values `ν`. Deletion looks at the keys of a batch only. -/
structure OrderedMap (κ ν M : Type*) where
  /-- The entries of a map, in key order. -/
  entries : M → List (κ × ν)
  /-- Insertion of a batch. -/
  multiInsert : M → List (κ × ν) → M
  /-- Deletion of the keys of a batch. -/
  multiDelete : M → List (κ × ν) → M
  /-- The entries of the first map whose keys the second one has not. -/
  mapDifference : M → M → M

namespace OrderedMap

variable {κ ν M : Type*} [LinearOrder κ]

/-- The operations are those of finite maps. Which entry of a batch is stored under a key that the
batch repeats is left open. -/
structure Lawful (ops : OrderedMap κ ν M) : Prop where
  /-- The keys ascend, each of them once. -/
  sorted : ∀ m, (ops.entries m).Pairwise (·.1 < ·.1)
  /-- After an insertion there are entries of the batch and old ones under other keys. -/
  of_mem_insert : ∀ m es e, e ∈ ops.entries (ops.multiInsert m es) →
    e ∈ es ∨ (e ∈ ops.entries m ∧ e.1 ∉ es.map Prod.fst)
  /-- All keys of the batch are there. -/
  key_mem_insert : ∀ m es k, k ∈ es.map Prod.fst →
    k ∈ (ops.entries (ops.multiInsert m es)).map Prod.fst
  /-- Old entries under other keys stay. -/
  mem_insert_of_mem : ∀ m es e, e ∈ ops.entries m → e.1 ∉ es.map Prod.fst →
    e ∈ ops.entries (ops.multiInsert m es)
  /-- A deletion leaves the entries under other keys. -/
  mem_delete : ∀ m es e, e ∈ ops.entries (ops.multiDelete m es) ↔
    e ∈ ops.entries m ∧ e.1 ∉ es.map Prod.fst
  /-- A difference leaves the entries whose keys the other map has not. -/
  mem_difference : ∀ m m' e, e ∈ ops.entries (ops.mapDifference m m') ↔
    e ∈ ops.entries m ∧ e.1 ∉ (ops.entries m').map Prod.fst

/-- Entry lists in key order are determined by their members. -/
theorem entries_ext {es es' : List (κ × ν)} (hs : es.Pairwise (·.1 < ·.1))
    (hs' : es'.Pairwise (·.1 < ·.1)) (h : ∀ e, e ∈ es ↔ e ∈ es') : es = es' := by
  have hnd : es.Nodup := hs.imp fun hlt heq => hlt.ne (congrArg Prod.fst heq)
  have hnd' : es'.Nodup := hs'.imp fun hlt heq => hlt.ne (congrArg Prod.fst heq)
  exact ((List.perm_ext_iff_of_nodup hnd hnd').mpr h).eq_of_pairwise
    (fun _ _ _ _ hab hba => absurd hab hba.not_gt) hs hs'

namespace Lawful

variable {ops : OrderedMap κ ν M} (h : ops.Lawful)

include h

theorem entries_delete (m : M) (es : List (κ × ν)) : ops.entries (ops.multiDelete m es) =
    (ops.entries m).filter fun e => e.1 ∉ es.map Prod.fst := by
  refine entries_ext (h.sorted _) ((h.sorted m).filter _) fun e => ?_
  rw [h.mem_delete, List.mem_filter, decide_eq_true_eq]

theorem entries_difference (m m' : M) : ops.entries (ops.mapDifference m m') =
    (ops.entries m).filter fun e => e.1 ∉ (ops.entries m').map Prod.fst := by
  refine entries_ext (h.sorted _) ((h.sorted m).filter _) fun e => ?_
  rw [h.mem_difference, List.mem_filter, decide_eq_true_eq]

/-- An inserted entry is found when no other entry of the batch has its key. -/
theorem mem_insert (m : M) {es : List (κ × ν)} (hes : (es.map Prod.fst).Nodup) (e : κ × ν) :
    e ∈ ops.entries (ops.multiInsert m es) ↔
      (e ∈ ops.entries m ∧ e.1 ∉ es.map Prod.fst) ∨ e ∈ es := by
  constructor
  · intro he
    exact (h.of_mem_insert m es e he).symm
  · rintro (⟨he, hkey⟩ | he)
    · exact h.mem_insert_of_mem m es e he hkey
    · have hkey : e.1 ∈ es.map Prod.fst := List.mem_map_of_mem he
      obtain ⟨e', he', hee'⟩ := List.mem_map.mp (h.key_mem_insert m es e.1 hkey)
      rcases h.of_mem_insert m es e' he' with hmem | ⟨-, hno⟩
      · rwa [List.inj_on_of_nodup_map hes hmem he hee'] at he'
      · exact absurd (hee' ▸ hkey) hno

theorem entries_insert_perm (m : M) {es : List (κ × ν)} (hes : (es.map Prod.fst).Nodup) :
    (ops.entries (ops.multiInsert m es)).Perm
      ((ops.entries m).filter (fun e => e.1 ∉ es.map Prod.fst) ++ es) := by
  have hnd : ∀ m, (ops.entries m).Nodup :=
    fun m => (h.sorted m).imp fun hlt heq => hlt.ne (congrArg Prod.fst heq)
  have hdisjoint : ((ops.entries m).filter fun e => e.1 ∉ es.map Prod.fst).Disjoint es := by
    intro e he hes'
    exact (of_decide_eq_true (List.mem_filter.mp he).2) (List.mem_map_of_mem hes')
  refine (List.perm_ext_iff_of_nodup (hnd _)
    (((hnd m).filter _).append hes.of_map hdisjoint)).mpr fun e => ?_
  rw [h.mem_insert m hes, List.mem_append, List.mem_filter, decide_eq_true_eq]

end Lawful

/-! ## Sorted entry lists -/

/-- Put an entry in its place, instead of the one with its key. -/
def insertEntry (e : κ × ν) (es : List (κ × ν)) : List (κ × ν) :=
  es.filter (·.1 < e.1) ++ e :: es.filter (e.1 < ·.1)

theorem mem_insertEntry {e e' : κ × ν} {es : List (κ × ν)} :
    e' ∈ insertEntry e es ↔ e' = e ∨ (e' ∈ es ∧ e'.1 ≠ e.1) := by
  unfold insertEntry
  rw [List.mem_append, List.mem_cons, List.mem_filter, List.mem_filter, decide_eq_true_eq,
    decide_eq_true_eq, ne_iff_lt_or_gt]
  tauto

theorem insertEntry_sorted (e : κ × ν) {es : List (κ × ν)} (hs : es.Pairwise (·.1 < ·.1)) :
    (insertEntry e es).Pairwise (·.1 < ·.1) := by
  refine List.pairwise_append.mpr ⟨hs.filter _, List.pairwise_cons.mpr ⟨?_, hs.filter _⟩, ?_⟩
  · intro e' he'
    exact of_decide_eq_true (List.mem_filter.mp he').2
  · intro a ha b hb
    have hae := of_decide_eq_true (List.mem_filter.mp ha).2
    rcases List.mem_cons.mp hb with rfl | hb
    · exact hae
    · exact hae.trans (of_decide_eq_true (List.mem_filter.mp hb).2)

/-- Entry lists in key order. -/
def SortedEntries (κ ν : Type*) [LinearOrder κ] : Type _ :=
  { es : List (κ × ν) // es.Pairwise (·.1 < ·.1) }

namespace SortedEntries

/-- Insert a batch; the first one of several entries with one key stays. -/
def insertAll (m : SortedEntries κ ν) (es : List (κ × ν)) : SortedEntries κ ν :=
  es.foldr (fun e m => ⟨insertEntry e m.1, insertEntry_sorted e m.2⟩) m

/-- Keep the entries that satisfy a test. -/
def filter (m : SortedEntries κ ν) (p : κ × ν → Bool) : SortedEntries κ ν :=
  ⟨m.1.filter p, m.2.filter p⟩

/-- Sorted entry lists as ordered maps. -/
def ops : OrderedMap κ ν (SortedEntries κ ν) where
  entries := Subtype.val
  multiInsert := insertAll
  multiDelete m es := m.filter fun e => e.1 ∉ es.map Prod.fst
  mapDifference m m' := m.filter fun e => e.1 ∉ m'.1.map Prod.fst

theorem of_mem_insertAll {m : SortedEntries κ ν} {es : List (κ × ν)} {e : κ × ν}
    (he : e ∈ (m.insertAll es).1) : e ∈ es ∨ (e ∈ m.1 ∧ e.1 ∉ es.map Prod.fst) := by
  induction es with
  | nil => exact Or.inr ⟨he, by simp⟩
  | cons e' es ih =>
    rcases mem_insertEntry.mp he with rfl | ⟨hrest, hne⟩
    · exact Or.inl (List.mem_cons_self ..)
    · rcases ih hrest with hmem | ⟨hold, hno⟩
      · exact Or.inl (List.mem_cons_of_mem _ hmem)
      · exact Or.inr ⟨hold, by simpa [hne] using hno⟩

theorem key_mem_insertAll {m : SortedEntries κ ν} {es : List (κ × ν)} {k : κ}
    (hk : k ∈ es.map Prod.fst) : k ∈ (m.insertAll es).1.map Prod.fst := by
  induction es with
  | nil => cases hk
  | cons e' es ih =>
    by_cases hne : k = e'.1
    · exact List.mem_map.mpr ⟨e', mem_insertEntry.mpr (Or.inl rfl), hne.symm⟩
    · obtain ⟨e, he, rfl⟩ := List.mem_map.mp (ih ((List.mem_cons.mp hk).resolve_left hne))
      exact List.mem_map.mpr ⟨e, mem_insertEntry.mpr (Or.inr ⟨he, hne⟩), rfl⟩

theorem mem_insertAll_of_mem {m : SortedEntries κ ν} {es : List (κ × ν)} {e : κ × ν}
    (he : e ∈ m.1) (hno : e.1 ∉ es.map Prod.fst) : e ∈ (m.insertAll es).1 := by
  induction es with
  | nil => exact he
  | cons e' es ih =>
    obtain ⟨hne, hno⟩ := not_or.mp (mt List.mem_cons.mpr hno)
    exact mem_insertEntry.mpr (Or.inr ⟨ih hno, hne⟩)

theorem ops_lawful : (ops : OrderedMap κ ν (SortedEntries κ ν)).Lawful where
  sorted m := m.2
  of_mem_insert _ _ _ := of_mem_insertAll
  key_mem_insert _ _ _ := key_mem_insertAll
  mem_insert_of_mem _ _ _ := mem_insertAll_of_mem
  mem_delete m es e := by
    show e ∈ List.filter _ m.1 ↔ _
    rw [List.mem_filter, decide_eq_true_eq]
    rfl
  mem_difference m m' e := by
    show e ∈ List.filter _ m.1 ↔ _
    rw [List.mem_filter, decide_eq_true_eq]
    rfl

/-- The map with the entries of a list. -/
def ofEntries (es : List (κ × ν)) : SortedEntries κ ν := insertAll ⟨[], .nil⟩ es

end SortedEntries

end OrderedMap
