import Mathlib.Data.List.Perm.Basic
import Mathlib.Order.Bounds.Basic

/-!
# Merging the elements of a list by joins

A merge procedure replaces two elements of a list by their join until it
stops.  Whatever order it works in, the elements left are the least upper
bounds of the blocks of a partition of the elements it started from: this is
`IsClustering`, kept by permutation (`IsClustering.perm_right`) and by one
merge (`IsClustering.merge`).  From it come the two facts a user of the
procedure wants: no input escapes (`IsClustering.covered`) and a bound of the
inputs still bounds the outputs (`IsClustering.bounded`).
-/

namespace Clustering

variable {α β : Type*}

/-- A map's image can be split off element by element. -/
theorem exists_perm_cons_of_map_perm (f : α → β) {l : List α} {b : β}
    {m : List β} (h : (l.map f).Perm (b :: m)) :
    ∃ a l', l.Perm (a :: l') ∧ f a = b ∧ (l'.map f).Perm m := by
  have hb : b ∈ l.map f := h.mem_iff.mpr List.mem_cons_self
  obtain ⟨a, ha, hfa⟩ := List.mem_map.mp hb
  obtain ⟨s, t, rfl⟩ := List.append_of_mem ha
  refine ⟨a, s ++ t, List.perm_middle, hfa, ?_⟩
  have hmap : ((s ++ a :: t).map f).Perm (b :: (s ++ t).map f) := by
    simp [hfa]
  exact (hmap.symm.trans h).cons_inv

/-- Two positions of a list, their elements brought to the front. -/
theorem perm_pair {l : List α} {i j : Nat} (hij : i < j) (hj : j < l.length) :
    l.Perm (l[i] :: l[j] :: (l.eraseIdx j).eraseIdx i) := by
  have hi : i < (l.eraseIdx j).length := by
    rw [List.length_eraseIdx_of_lt hj]
    omega
  have hfront := List.getElem_cons_eraseIdx_perm hi
  rw [List.getElem_eraseIdx_of_lt hi hij] at hfront
  calc l.Perm (l[j] :: l.eraseIdx j) := (List.getElem_cons_eraseIdx_perm hj).symm
    _ |>.Perm (l[j] :: l[i] :: (l.eraseIdx j).eraseIdx i) := hfront.symm.cons _
    _ |>.Perm (l[i] :: l[j] :: (l.eraseIdx j).eraseIdx i) := List.Perm.swap _ _ _

/-- And three of them. -/
theorem perm_triple {l : List α} {i j k : Nat} (hij : i < j) (hjk : j < k) (hk : k < l.length) :
    ∃ rest, l.Perm (l[i] :: l[j] :: l[k] :: rest) := by
  have hlast : k - 1 < (l.eraseIdx i).length := by
    rw [List.length_eraseIdx_of_lt (by omega)]
    omega
  have hpair := perm_pair (l := l.eraseIdx i) (i := j - 1) (j := k - 1) (by omega) hlast
  rw [List.getElem_eraseIdx_of_ge _ (by omega), List.getElem_eraseIdx_of_ge _ (by omega)] at hpair
  simp only [Nat.sub_add_cancel (show 1 ≤ j by omega),
    Nat.sub_add_cancel (show 1 ≤ k by omega)] at hpair
  exact ⟨_, (List.getElem_cons_eraseIdx_perm (by omega)).symm.trans (hpair.cons _)⟩

variable [SemilatticeSup α]

/-- `ys` are the least upper bounds of the blocks of a partition of `xs` into
nonempty blocks, one element of `ys` for each block. -/
def IsClustering (xs ys : List α) : Prop :=
  ∃ blocks : List (List α × α),
    (∀ block ∈ blocks, block.1 ≠ [] ∧ IsLUB {a | a ∈ block.1} block.2) ∧
    (blocks.map Prod.fst).flatten.Perm xs ∧ (blocks.map Prod.snd).Perm ys

/-- Before any merge every element is its own block. -/
theorem IsClustering.refl (xs : List α) : IsClustering xs xs := by
  refine ⟨xs.map fun a => ([a], a), ?_, ?_, ?_⟩
  · intro block hblock
    obtain ⟨a, _, rfl⟩ := List.mem_map.mp hblock
    refine ⟨List.cons_ne_nil _ _, ?_⟩
    simp [isLUB_singleton]
  · rw [List.map_map]
    have hsingle : xs.map (Prod.fst ∘ fun a => ([a], a)) = xs.map fun a => [a] := rfl
    rw [hsingle, ← List.flatMap_def, List.flatMap_singleton']
  · simp [Function.comp_def]

/-- The order of the elements left does not matter. -/
theorem IsClustering.perm_right {xs ys zs : List α}
    (h : IsClustering xs ys) (hperm : ys.Perm zs) : IsClustering xs zs := by
  obtain ⟨blocks, hlub, hxs, hys⟩ := h
  exact ⟨blocks, hlub, hxs, hys.trans hperm⟩

/-- **One merge.**  Replacing two elements by their join joins their blocks;
the other blocks stay, and each element is still the join of its block. -/
theorem IsClustering.merge {xs rest : List α} {a b : α}
    (h : IsClustering xs (a :: b :: rest)) : IsClustering xs ((a ⊔ b) :: rest) := by
  obtain ⟨blocks, hlub, hxs, hys⟩ := h
  obtain ⟨p, blocks₁, hp, rfl, hys₁⟩ := exists_perm_cons_of_map_perm Prod.snd hys
  obtain ⟨q, blocks₂, hq, rfl, hys₂⟩ := exists_perm_cons_of_map_perm Prod.snd hys₁
  have hblocks : blocks.Perm (p :: q :: blocks₂) := hp.trans (hq.cons p)
  have hp_lub := hlub p (hblocks.mem_iff.mpr (by simp))
  have hq_lub := hlub q (hblocks.mem_iff.mpr (by simp))
  refine ⟨(p.1 ++ q.1, p.2 ⊔ q.2) :: blocks₂, ?_, ?_, ?_⟩
  · intro block hblock
    rcases List.mem_cons.mp hblock with rfl | hrest
    · refine ⟨by simp [hp_lub.1], ?_⟩
      have hunion : {x | x ∈ p.1 ++ q.1} = {x | x ∈ p.1} ∪ {x | x ∈ q.1} := by
        ext x
        simp
      rw [hunion]
      exact hp_lub.2.union hq_lub.2
    · exact hlub block (hblocks.mem_iff.mpr (by simp [hrest]))
  · have hflat := (hblocks.map Prod.fst).flatten
    simp only [List.map_cons, List.flatten_cons, List.append_assoc] at hflat ⊢
    exact hflat.symm.trans hxs
  · exact hys₂.cons _

/-- A merge in place: the join is written over the earlier of two positions
and the later one is erased. -/
theorem IsClustering.set_eraseIdx {xs ys : List α} (h : IsClustering xs ys)
    {i j : Nat} (hij : i < j) (hj : j < ys.length) :
    IsClustering xs ((ys.set i (ys[i] ⊔ ys[j])).eraseIdx j) := by
  have hi : i < (ys.eraseIdx j).length := by
    rw [List.length_eraseIdx_of_lt hj]
    omega
  rw [List.eraseIdx_set_gt hij]
  exact (h.perm_right (perm_pair hij hj)).merge.perm_right
    (List.set_perm_cons_eraseIdx hi _).symm

/-- A later element below an earlier one can be erased. -/
theorem IsClustering.eraseIdx_later {xs ys : List α} (h : IsClustering xs ys)
    {i j : Nat} (hij : i < j) (hj : j < ys.length) (hle : ys[j] ≤ ys[i]) :
    IsClustering xs (ys.eraseIdx j) := by
  have hset := h.set_eraseIdx hij hj
  rwa [sup_eq_left.mpr hle, List.set_getElem_self] at hset

/-- An earlier element below a later one can be erased. -/
theorem IsClustering.eraseIdx_earlier {xs ys : List α} (h : IsClustering xs ys)
    {i j : Nat} (hij : i < j) (hj : j < ys.length) (hle : ys[i] ≤ ys[j]) :
    IsClustering xs (ys.eraseIdx i) := by
  have hpair := perm_pair hij hj
  have hmerged := (h.perm_right hpair).merge
  rw [sup_eq_right.mpr hle] at hmerged
  have hback := (List.getElem_cons_eraseIdx_perm (hij.trans hj)).trans hpair
  exact hmerged.perm_right hback.cons_inv.symm

/-- Three of the elements left belong to blocks of their own, each of them the
least bound of its block. -/
theorem IsClustering.blocks {xs rest : List α} {a b c : α}
    (h : IsClustering xs (a :: b :: c :: rest)) :
    ∃ as bs cs others : List α, (as ++ (bs ++ cs) ++ others).Perm xs ∧
      IsLUB {x | x ∈ as} a ∧ IsLUB {x | x ∈ bs} b ∧ IsLUB {x | x ∈ cs} c := by
  obtain ⟨blocks, hlub, hxs, hys⟩ := h
  obtain ⟨p, blocks₁, hp, rfl, hys₁⟩ := exists_perm_cons_of_map_perm Prod.snd hys
  obtain ⟨q, blocks₂, hq, rfl, hys₂⟩ := exists_perm_cons_of_map_perm Prod.snd hys₁
  obtain ⟨o, blocks₃, ho, rfl, -⟩ := exists_perm_cons_of_map_perm Prod.snd hys₂
  have hblocks : blocks.Perm (p :: q :: o :: blocks₃) := hp.trans ((hq.trans (ho.cons q)).cons p)
  have hflat := (hblocks.map Prod.fst).flatten.symm.trans hxs
  simp only [List.map_cons, List.flatten_cons] at hflat
  refine ⟨p.1, q.1, o.1, (blocks₃.map Prod.fst).flatten, by simpa using hflat, ?_, ?_, ?_⟩
  · exact (hlub p (hblocks.mem_iff.mpr (by simp))).2
  · exact (hlub q (hblocks.mem_iff.mpr (by simp))).2
  · exact (hlub o (hblocks.mem_iff.mpr (by simp))).2

/-- Every element that entered is below one that is left. -/
theorem IsClustering.covered {xs ys : List α} (h : IsClustering xs ys)
    {x : α} (hx : x ∈ xs) : ∃ y ∈ ys, x ≤ y := by
  obtain ⟨blocks, hlub, hxs, hys⟩ := h
  obtain ⟨l, hl, hxl⟩ := List.mem_flatten.mp (hxs.mem_iff.mpr hx)
  obtain ⟨block, hblock, rfl⟩ := List.mem_map.mp hl
  refine ⟨block.2, hys.mem_iff.mp (List.mem_map_of_mem hblock), ?_⟩
  exact (hlub block hblock).2.1 hxl

/-- Every element left is above one that entered. -/
theorem IsClustering.above {xs ys : List α} (h : IsClustering xs ys)
    {y : α} (hy : y ∈ ys) : ∃ x ∈ xs, x ≤ y := by
  obtain ⟨blocks, hlub, hxs, hys⟩ := h
  obtain ⟨block, hblock, rfl⟩ := List.mem_map.mp (hys.mem_iff.mpr hy)
  obtain ⟨x, hx⟩ := List.exists_mem_of_ne_nil _ (hlub block hblock).1
  refine ⟨x, ?_, (hlub block hblock).2.1 hx⟩
  exact hxs.mem_iff.mp
    (List.mem_flatten.mpr ⟨block.1, List.mem_map_of_mem hblock, hx⟩)

/-- A bound of everything that entered bounds everything that is left. -/
theorem IsClustering.bounded {xs ys : List α} (h : IsClustering xs ys)
    {u : α} (hu : ∀ x ∈ xs, x ≤ u) : ∀ y ∈ ys, y ≤ u := by
  obtain ⟨blocks, hlub, hxs, hys⟩ := h
  intro y hy
  obtain ⟨block, hblock, rfl⟩ := List.mem_map.mp (hys.mem_iff.mpr hy)
  refine (hlub block hblock).2.2 ?_
  intro x hx
  exact hu x (hxs.mem_iff.mp
    (List.mem_flatten.mpr ⟨block.1, List.mem_map_of_mem hblock, hx⟩))

end Clustering
