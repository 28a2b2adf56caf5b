/-
  Ranks of the entries of a list, and stable sorting.

  Entries are ordered by a key and, among equal keys, by their position, so no two
  have the same rank.

  * `rank_mergeSort`: the stable sort of the positions puts rank `k` at place `k`.
  * `exists_le_of_rank`, `exists_ge_of_rank`: a large enough set of entries has
    members on both sides of an entry of middle rank.
  * `key_eq_of_rank`: the key at a rank does not depend on the order of the list.
-/
import Mathlib.Data.Fintype.Fin
import Mathlib.Data.Fintype.Card
import Mathlib.Data.List.FinRange
import Mathlib.Order.Interval.Finset.Fin

namespace Rank

variable {n : ℕ} {α : Type} [LinearOrder α] {key : Fin n → α}

/-- `i` stands before `j`: it has the smaller key or, with the same key, the smaller
    position. -/
def Before (key : Fin n → α) (i j : Fin n) : Prop := key i < key j ∨ key i = key j ∧ i < j

instance (key : Fin n → α) (i j : Fin n) : Decidable (Before key i j) := by
  unfold Before
  infer_instance

/-- The number of entries before `i`. -/
def rank (key : Fin n → α) (i : Fin n) : ℕ := (Finset.univ.filter fun j => Before key j i).card

theorem Before.irrefl (i : Fin n) : ¬ Before key i i := by simp [Before]

theorem Before.trans {i j k : Fin n} (hij : Before key i j) (hjk : Before key j k) :
    Before key i k := by
  rcases hij with hij | ⟨hij, hlt⟩
  · rcases hjk with hjk | ⟨hjk, -⟩
    · exact Or.inl (hij.trans hjk)
    · exact Or.inl (hjk ▸ hij)
  · rcases hjk with hjk | ⟨hjk, hlt'⟩
    · exact Or.inl (hij ▸ hjk)
    · exact Or.inr ⟨hij.trans hjk, hlt.trans hlt'⟩

theorem Before.le {i j : Fin n} (h : Before key i j) : key i ≤ key j := by
  rcases h with h | ⟨h, -⟩
  · exact h.le
  · exact h.le

theorem before_or (key : Fin n → α) {i j : Fin n} (h : i ≠ j) :
    Before key i j ∨ Before key j i := by
  rcases lt_trichotomy (key i) (key j) with hk | hk | hk
  · exact Or.inl (Or.inl hk)
  · rcases lt_or_gt_of_ne h with hi | hi
    · exact Or.inl (Or.inr ⟨hk, hi⟩)
    · exact Or.inr (Or.inr ⟨hk.symm, hi⟩)
  · exact Or.inr (Or.inl hk)

/-! ## Ranks -/

theorem rank_lt {i j : Fin n} (h : Before key i j) : rank key i < rank key j := by
  refine Finset.card_lt_card (Finset.ssubset_iff_of_subset ?_ |>.2 ⟨i, by simpa using h, ?_⟩)
  · intro k hk
    simp only [Finset.mem_filter, Finset.mem_univ, true_and] at hk ⊢
    exact hk.trans h
  · simp [Before.irrefl]

/-- Ranks are distinct. -/
theorem rank_injective (key : Fin n → α) : Function.Injective (rank key) := by
  intro i j h
  by_contra hne
  rcases before_or key hne with hb | hb
  · exact absurd h (rank_lt hb).ne
  · exact absurd h (rank_lt hb).ne'

theorem card_lt_le_rank (key : Fin n → α) (i : Fin n) :
    (Finset.univ.filter fun j => key j < key i).card ≤ rank key i := by
  refine Finset.card_le_card fun j hj => ?_
  simp only [Finset.mem_filter, Finset.mem_univ, true_and] at hj ⊢
  exact Or.inl hj

theorem rank_lt_card_le (key : Fin n → α) (i : Fin n) :
    rank key i < (Finset.univ.filter fun j => key j ≤ key i).card := by
  refine Finset.card_lt_card (Finset.ssubset_iff_of_subset ?_ |>.2 ⟨i, by simp, ?_⟩)
  · intro j hj
    simp only [Finset.mem_filter, Finset.mem_univ, true_and] at hj ⊢
    exact hj.le
  · simp [Before.irrefl]

/-- The entries above an entry, its own place and the places before it. -/
theorem card_gt_add_rank (key : Fin n → α) (i : Fin n) :
    (Finset.univ.filter fun j => key i < key j).card + rank key i < n := by
  have h := Finset.card_filter_add_card_filter_not (s := Finset.univ) fun j => key j ≤ key i
  simp only [not_le, Finset.card_univ, Fintype.card_fin] at h
  have hr := rank_lt_card_le key i
  omega

/-- More entries than stand before `i` are not all below it. -/
theorem exists_ge_of_rank {H : Finset (Fin n)} {i : Fin n} (h : rank key i < H.card) :
    ∃ j ∈ H, key i ≤ key j := by
  by_contra hall
  push Not at hall
  have hsub : H ⊆ Finset.univ.filter fun j => key j < key i := by
    intro j hj
    simp [hall j hj]
  have hc := Finset.card_le_card hsub
  have hl := card_lt_le_rank key i
  omega

/-- More entries than stand after `i` are not all above it. -/
theorem exists_le_of_rank {H : Finset (Fin n)} {i : Fin n} (h : n ≤ H.card + rank key i) :
    ∃ j ∈ H, key j ≤ key i := by
  by_contra hall
  push Not at hall
  have hsub : H ⊆ Finset.univ.filter fun j => key i < key j := by
    intro j hj
    simp [hall j hj]
  have hc := Finset.card_le_card hsub
  have hg := card_gt_add_rank key i
  omega

/-! ## The order of the list -/

theorem card_filter_get {β : Type} (l : List β) (p : β → Bool) :
    (Finset.univ.filter fun i : Fin l.length => p (l.get i)).card = l.countP p := by
  have hl : l.countP p = (List.finRange l.length).countP fun i => p (l.get i) := by
    conv => lhs; rw [← List.map_get_finRange l]
    rw [List.countP_map]
    rfl
  rw [hl, List.countP_eq_length_filter, Fin.univ_def, Finset.filter, Finset.card]
  simp

/-- The key at a rank is the same in every order of the list. -/
theorem key_eq_of_rank {β : Type} (val : β → α) {l l' : List β} (hp : l'.Perm l)
    {i : Fin l.length} {j : Fin l'.length}
    (h : rank (fun k => val (l'.get k)) j = rank (fun k => val (l.get k)) i) :
    val (l'.get j) = val (l.get i) := by
  -- if one key is smaller, more entries stand at or below it than below the other one
  have key : ∀ {l l' : List β} {i : Fin l.length} {j : Fin l'.length}, l'.Perm l →
      rank (fun k => val (l'.get k)) j = rank (fun k => val (l.get k)) i →
      ¬ val (l'.get j) < val (l.get i) := by
    intro l l' i j hp h hlt
    have h1 := rank_lt_card_le (fun k => val (l'.get k)) j
    have h2 := card_lt_le_rank (fun k => val (l.get k)) i
    have h3 := card_filter_get l' fun x => decide (val x ≤ val (l'.get j))
    have h4 := card_filter_get l fun x => decide (val x < val (l.get i))
    have h5 : l.countP (fun x => decide (val x ≤ val (l'.get j))) ≤
        l.countP fun x => decide (val x < val (l.get i)) := by
      refine List.countP_mono_left fun x _ hx => ?_
      simp only [decide_eq_true_eq] at hx ⊢
      exact hx.trans_lt hlt
    rw [hp.countP_eq] at h3
    simp only [decide_eq_true_eq] at h3 h4
    omega
  rcases lt_trichotomy (val (l'.get j)) (val (l.get i)) with hlt | heq | hgt
  · exact absurd hlt (key hp h)
  · exact heq
  · exact absurd hgt (key hp.symm h.symm)

/-! ## Stable sorting -/

/-- Two entries of a list, in their order. -/
theorem getElem_pair_sublist {β : Type} (l : List β) {i j : ℕ} (hi : i < l.length)
    (hj : j < l.length) (h : i < j) : [l[i], l[j]].Sublist l :=
  List.pairwise_iff_getElem.1 (List.pairwise_iff_forall_sublist.2 fun h => h) i j hi hj h

/-- A list without repetitions has two entries in one order only. -/
theorem pair_sublist_asymm {β : Type} [DecidableEq β] {l : List β} (hl : l.Nodup) {a b : β}
    (h : [a, b].Sublist l) : ¬ [b, a].Sublist l := by
  intro h'
  have hp : l.Pairwise fun a b => l.idxOf a < l.idxOf b := by
    rw [List.pairwise_iff_getElem]
    intro i j hi hj hij
    rw [hl.idxOf_getElem, hl.idxOf_getElem]
    exact hij
  have h1 := hp.forall_sublist h
  have h2 := hp.forall_sublist h'
  omega

section
variable {le : Fin n → Fin n → Bool} (hle : ∀ i j, le i j ↔ key i ≤ key j)
include hle

/-- The stable sort puts every position before the later ones. -/
theorem pairwise_mergeSort : ((List.finRange n).mergeSort le).Pairwise (Before key) := by
  have htrans : ∀ i j k, le i j → le j k → le i k := by
    intro i j k
    rw [hle, hle, hle]
    exact le_trans
  have htotal : ∀ i j, le i j || le j i := by
    intro i j
    rw [Bool.or_eq_true, hle, hle]
    exact le_total _ _
  have hsorted := List.pairwise_mergeSort htrans htotal (List.finRange n)
  have hnodup := (List.mergeSort_perm (List.finRange n) le).nodup_iff.2 (List.nodup_finRange n)
  rw [List.pairwise_iff_forall_sublist] at hsorted ⊢
  intro i j hij
  rcases ((hle i j).1 (hsorted hij)).lt_or_eq with hlt | heq
  · exact Or.inl hlt
  refine Or.inr ⟨heq, ?_⟩
  rcases lt_trichotomy i j with hlt | rfl | hgt
  · exact hlt
  · exact absurd hij (List.nodup_iff_sublist.1 hnodup i)
  · -- the sort is stable: it would have kept `j` before `i`
    have hji : [j, i].Sublist (List.finRange n) := by
      have h := getElem_pair_sublist (List.finRange n) (i := j) (j := i) (by simp) (by simp) hgt
      simpa using h
    have hs := List.pair_sublist_mergeSort htrans htotal ((hle j i).2 heq.ge) hji
    exact absurd hs (pair_sublist_asymm hnodup hij)

/-- **The sorted positions are in the order of their ranks.** -/
theorem rank_mergeSort (k : Fin ((List.finRange n).mergeSort le).length) :
    rank key (((List.finRange n).mergeSort le).get k) = k := by
  have hp := pairwise_mergeSort hle
  have hnodup := (List.mergeSort_perm (List.finRange n) le).nodup_iff.2 (List.nodup_finRange n)
  generalize hl : (List.finRange n).mergeSort le = l at k hp hnodup
  have hmem : ∀ i, i ∈ l := by
    intro i
    rw [← hl, List.mem_mergeSort]
    exact List.mem_finRange i
  rw [List.pairwise_iff_getElem] at hp
  have hset : (Finset.univ.filter fun j => Before key j (l.get k)) = (l.take k).toFinset := by
    ext j
    obtain ⟨m, hm, rfl⟩ := List.getElem_of_mem (hmem j)
    simp only [Finset.mem_filter, Finset.mem_univ, true_and, List.mem_toFinset, List.get_eq_getElem,
      List.mem_take_iff_getElem]
    constructor
    · intro hb
      refine ⟨m, ?_, rfl⟩
      rcases lt_trichotomy m k with hlt | rfl | hgt
      · omega
      · exact absurd hb (Before.irrefl _)
      · exact absurd (hb.trans (hp k m k.2 hm hgt)) (Before.irrefl _)
    · rintro ⟨m', hm', he⟩
      rw [← he]
      exact hp m' k (by omega) k.2 (by omega)
  rw [rank, hset, List.toFinset_card_of_nodup (hnodup.sublist (List.take_sublist _ _)),
    List.length_take]
  omega

end

end Rank
