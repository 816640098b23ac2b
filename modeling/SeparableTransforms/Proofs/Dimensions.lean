import Mathlib.Data.List.GetD
import Mathlib.Data.List.Sort
import SeparableTransforms.Separation.Targets

/-!
# Lists of dimensions

A request and every list that is derived from one are strictly increasing and
stay below the number of dimensions.  Such a list is determined by its members,
so it can be read as a filter of the list of all dimensions, and it holds all
dimensions as soon as it is long enough.

`pick` takes the coordinates of a point at the dimensions of a list.
-/

namespace SeparableTransforms

universe u

/-- A strictly increasing list of dimensions below a limit. -/
structure Increasing (dims : List Nat) (limit : Nat) : Prop where
  sorted : dims.Pairwise (· < ·)
  bounded : ∀ d ∈ dims, d < limit

section Increasing

variable {dims dims' : List Nat} {limit n : Nat}

theorem increasing_range (n : Nat) : Increasing (List.range n) n :=
  ⟨List.pairwise_lt_range, fun _ hd => List.mem_range.mp hd⟩

theorem ne_nil_of_forall_mem (hne : dims ≠ []) (h : ∀ d ∈ dims, d ∈ dims') : dims' ≠ [] := by
  obtain ⟨d, hd⟩ := List.exists_mem_of_ne_nil _ hne
  exact List.ne_nil_of_mem (h d hd)

theorem increasing_nil (n : Nat) : Increasing [] n :=
  ⟨List.Pairwise.nil, by simp⟩

theorem increasing_cons_iff {d : Nat} :
    Increasing (d :: dims) limit ↔ d < limit ∧ (∀ e ∈ dims, d < e) ∧ Increasing dims limit := by
  constructor
  · intro h
    obtain ⟨habove, hsorted⟩ := List.pairwise_cons.mp h.sorted
    exact ⟨h.bounded d List.mem_cons_self, habove, hsorted,
      fun e he => h.bounded e (List.mem_cons_of_mem d he)⟩
  · rintro ⟨hd, habove, hdims⟩
    refine ⟨List.pairwise_cons.mpr ⟨habove, hdims.sorted⟩, fun e he => ?_⟩
    rcases List.mem_cons.mp he with rfl | he
    · exact hd
    · exact hdims.bounded e he

theorem Increasing.snoc (h : Increasing dims limit) : Increasing (dims ++ [limit]) (limit + 1) := by
  refine ⟨List.pairwise_append.mpr ⟨h.sorted, List.pairwise_singleton _ limit, ?_⟩, ?_⟩
  · intro d hd d' hd'
    exact (List.mem_singleton.mp hd').symm ▸ h.bounded d hd
  · intro d hd
    rcases List.mem_append.mp hd with hd | hd
    · exact Nat.lt_succ_of_lt (h.bounded d hd)
    · exact Nat.lt_succ_of_le (List.mem_singleton.mp hd).le

theorem Increasing.filter (h : Increasing dims limit) (q : Nat → Bool) :
    Increasing (dims.filter q) limit :=
  ⟨h.sorted.filter q, fun d hd => h.bounded d (List.mem_filter.mp hd).1⟩

theorem increasing_filter_range (n : Nat) (q : Nat → Bool) :
    Increasing ((List.range n).filter q) n :=
  (increasing_range n).filter q

/-- Increasing lists with the same members are equal. -/
theorem Increasing.eq_of_mem_iff (h : Increasing dims limit) (h' : Increasing dims' n)
    (hmem : ∀ d, d ∈ dims ↔ d ∈ dims') : dims = dims' :=
  h.sorted.eq_of_mem_iff h'.sorted hmem

theorem Increasing.filter_range (h : Increasing dims limit) :
    ((List.range limit).filter fun d => dims.contains d) = dims := by
  refine (increasing_filter_range limit _).eq_of_mem_iff h fun d => ?_
  simp only [List.mem_filter, List.mem_range, List.contains_iff_mem]
  exact ⟨And.right, fun hd => ⟨h.bounded d hd, hd⟩⟩

/-- An increasing list that is long enough holds all dimensions. -/
theorem Increasing.eq_range (h : Increasing dims limit) (hlen : limit ≤ dims.length) :
    dims = List.range limit := by
  have hsub : List.Sublist dims (List.range limit) := by
    have := List.filter_sublist (p := fun d => dims.contains d) (l := List.range limit)
    rwa [h.filter_range] at this
  exact hsub.eq_of_length_le (by simpa using hlen)

theorem isFull_iff : isFull dims limit = true ↔ dims = List.range limit := by
  simp [isFull]

theorem isFull_range (n : Nat) : isFull (List.range n) n = true :=
  isFull_iff.mpr rfl

theorem Increasing.isFull_iff_length (h : Increasing dims limit) :
    isFull dims limit = true ↔ limit ≤ dims.length := by
  rw [isFull_iff]
  exact ⟨fun he => by simp [he], h.eq_range⟩

end Increasing

section Points

variable {α : Type u} [Zero α]

/-- The coordinates of a point at the given dimensions. -/
def pick (point : List α) (dims : List Nat) : List α :=
  dims.map fun d => point.getD d 0

variable {point : List α} {dims dims' : List Nat}

@[simp] theorem length_pick : (pick point dims).length = dims.length := by
  simp [pick]

theorem pick_append : pick point (dims ++ dims') = pick point dims ++ pick point dims' := by
  simp [pick]

theorem getD_pick {i : Nat} (hi : i < dims.length) :
    (pick point dims).getD i 0 = point.getD (dims.getD i 0) 0 := by
  simp [pick, hi]

/-- All coordinates make up the point. -/
theorem pick_range {n : Nat} (h : point.length = n) : pick point (List.range n) = point := by
  subst h
  apply List.ext_getElem (by simp)
  intro i hi hi'
  simp [pick, hi']

end Points

section Inside

variable {dims : List Nat} {limit k c d : Nat}

/-- The dimensions among the `c` that follow the first `k`, counted from there. -/
def inside (k c : Nat) (dims : List Nat) : List Nat :=
  (dims.filter fun d => k ≤ d && d < k + c).map fun d => d - k

theorem mem_inside_iff : d ∈ inside k c dims ↔ d < c ∧ k + d ∈ dims := by
  simp only [inside, List.mem_map, List.mem_filter, Bool.and_eq_true, decide_eq_true_eq]
  constructor
  · rintro ⟨e, ⟨he, hk, hc⟩, rfl⟩
    exact ⟨by omega, by rwa [Nat.add_sub_cancel' hk]⟩
  · rintro ⟨hd, hmem⟩
    exact ⟨k + d, ⟨hmem, by omega, by omega⟩, by omega⟩

theorem sub_mem_inside (hd : d ∈ dims) (hk : k ≤ d) (hc : d < k + c) : d - k ∈ inside k c dims :=
  mem_inside_iff.mpr ⟨by omega, by rwa [Nat.add_sub_cancel' hk]⟩

/-- If no dimension lies inside, each lies before or after. -/
theorem outside_of_inside_eq_nil (h : inside k c dims = []) (hd : d ∈ dims) :
    d < k ∨ k + c ≤ d := by
  by_contra hin
  have hmem : d - k ∈ inside k c dims := sub_mem_inside hd (by omega) (by omega)
  rw [h] at hmem
  cases hmem

theorem increasing_inside (h : Increasing dims limit) : Increasing (inside k c dims) c := by
  refine ⟨List.pairwise_map.mpr ?_, fun d hd => (mem_inside_iff.mp hd).1⟩
  refine (h.sorted.filter _).imp_of_mem fun ha _ hab => ?_
  simp only [List.mem_filter, Bool.and_eq_true, decide_eq_true_eq] at ha
  omega

/-- The outputs of a pass-through from the dimensions `S`, with `T` those of the inner transform
that takes the `s` dimensions after the first `k` and gives `c`. -/
def copyAround (k s c : Nat) (S T : List Nat) : List Nat :=
  (S.filter fun d => d < k) ++ T.map (fun d => d + k) ++
    (S.filter fun d => k + s ≤ d).map fun d => d - s + c

theorem mem_copyAround_iff {s : Nat} {S T : List Nat} :
    d ∈ copyAround k s c S T ↔
      (d ∈ S ∧ d < k) ∨ (∃ t ∈ T, t + k = d) ∨ ∃ e ∈ S, k + s ≤ e ∧ e - s + c = d := by
  simp only [copyAround, List.mem_append, List.mem_filter, List.mem_map, decide_eq_true_eq,
    or_assoc, and_assoc]

theorem increasing_copyAround {s n : Nat} {S T : List Nat} (hS : Increasing S (k + s + n))
    (hT : Increasing T c) : Increasing (copyAround k s c S T) (k + c + n) := by
  constructor
  · refine List.pairwise_append.mpr ⟨List.pairwise_append.mpr ⟨?_, ?_, ?_⟩, ?_, ?_⟩
    · exact hS.sorted.filter _
    · exact List.pairwise_map.mpr (hT.sorted.imp fun h => by omega)
    · intro a ha b hb
      obtain ⟨t, _, rfl⟩ := List.mem_map.mp hb
      have := of_decide_eq_true (List.mem_filter.mp ha).2
      omega
    · refine List.pairwise_map.mpr ((hS.sorted.filter _).imp_of_mem fun ha _ hab => ?_)
      have := of_decide_eq_true (List.mem_filter.mp ha).2
      omega
    · intro a ha b hb
      obtain ⟨e, he, rfl⟩ := List.mem_map.mp hb
      have he := of_decide_eq_true (List.mem_filter.mp he).2
      rcases List.mem_append.mp ha with ha | ha
      · have := of_decide_eq_true (List.mem_filter.mp ha).2
        omega
      · obtain ⟨t, ht, rfl⟩ := List.mem_map.mp ha
        have := hT.bounded t ht
        omega
  · intro d hd
    rcases mem_copyAround_iff.mp hd with ⟨_, hlead⟩ | ⟨t, ht, rfl⟩ | ⟨e, he, hk, rfl⟩
    · omega
    · have := hT.bounded t ht
      omega
    · have := hS.bounded e he
      omega

/-- A list of dimensions is made of those before, inside and after. -/
theorem copyAround_inside {s n : Nat} {S : List Nat} (hS : Increasing S (k + s + n)) :
    copyAround k s s S (inside k s S) = S := by
  refine (increasing_copyAround hS (increasing_inside hS)).eq_of_mem_iff hS fun d => ?_
  rw [mem_copyAround_iff]
  constructor
  · rintro (⟨hd, _⟩ | ⟨t, ht, rfl⟩ | ⟨e, he, hk, rfl⟩)
    · exact hd
    · rw [Nat.add_comm]
      exact (mem_inside_iff.mp ht).2
    · rwa [Nat.sub_add_cancel (by omega)]
  · intro hd
    rcases Nat.lt_or_ge d k with hlead | hlead
    · exact .inl ⟨hd, hlead⟩
    · rcases Nat.lt_or_ge d (k + s) with hinner | htrail
      · exact .inr (.inl ⟨d - k, sub_mem_inside hd hlead hinner, by omega⟩)
      · exact .inr (.inr ⟨d, hd, htrail, by omega⟩)

theorem length_copyAround {s : Nat} {S T : List Nat} :
    (copyAround k s c S T).length =
      (S.filter fun d => d < k).length + T.length + (S.filter fun d => k + s ≤ d).length := by
  simp [copyAround, Nat.add_assoc]

/-- The dimensions before the inner ones come first. -/
theorem take_before {s n : Nat} {S : List Nat} (hS : Increasing S (k + s + n)) :
    S.take (S.filter fun d => d < k).length = S.filter fun d => d < k := by
  have hwhole := copyAround_inside hS
  calc S.take (S.filter fun d => d < k).length
      = (copyAround k s s S (inside k s S)).take (S.filter fun d => d < k).length := by
        rw [hwhole]
    _ = S.filter fun d => d < k := by
        rw [copyAround, List.append_assoc, List.take_left]

theorem inside_range {s n : Nat} : inside k s (List.range (k + s + n)) = List.range s := by
  refine (increasing_inside (increasing_range _)).eq_of_mem_iff (increasing_range s) fun d => ?_
  rw [mem_inside_iff, List.mem_range, List.mem_range]
  omega

theorem copyAround_range {s n : Nat} :
    copyAround k s c (List.range (k + s + n)) (List.range c) = List.range (k + c + n) := by
  refine (increasing_copyAround (increasing_range _) (increasing_range c)).eq_of_mem_iff
    (increasing_range _) fun d => ?_
  rw [mem_copyAround_iff]
  simp only [List.mem_range]
  constructor
  · rintro (⟨_, _⟩ | ⟨t, ht, rfl⟩ | ⟨e, he, hk, rfl⟩) <;> omega
  · intro hd
    rcases Nat.lt_or_ge d k with hlead | hlead
    · exact .inl ⟨by omega, hlead⟩
    · rcases Nat.lt_or_ge d (k + c) with hinner | htrail
      · exact .inr (.inl ⟨d - k, by omega, by omega⟩)
      · exact .inr (.inr ⟨d - c + s, by omega, by omega, by omega⟩)

end Inside

section Around

variable {α : Type u} [Zero α] {p w : List α} {k s t : Nat}

/-- The coordinates of a point around which `k` leading ones and some trailing ones are copied. -/
theorem getD_around (hk : k ≤ p.length) :
    (p.take k ++ w ++ p.drop (k + s)).getD t 0 =
      if t < k then p.getD t 0
      else if t < k + w.length then w.getD (t - k) 0
      else p.getD (t - w.length + s) 0 := by
  have hlen : (p.take k).length = k := by rw [List.length_take, Nat.min_eq_left hk]
  split
  · rename_i hlead
    rw [List.append_assoc, List.getD_append _ _ _ _ (by omega)]
    simp [hlead]
  · split
    · rw [List.getD_append _ _ _ _ (by rw [List.length_append]; omega),
        List.getD_append_right _ _ _ _ (by omega), hlen]
    · rw [List.getD_append_right _ _ _ _ (by rw [List.length_append]; omega), List.length_append,
        hlen]
      have hplace : k + s + (t - (k + w.length)) = t - w.length + s := by omega
      simp [hplace]

theorem getD_pick_idxOf {kept : List Nat} {d : Nat} (h : d ∈ kept) :
    (pick w kept).getD (kept.idxOf d) 0 = w.getD d 0 := by
  have hlt := List.idxOf_lt_length_of_mem h
  rw [getD_pick hlt]
  simp [hlt]

theorem pick_congr {q : List α} {dims : List Nat} (h : ∀ d ∈ dims, p.getD d 0 = q.getD d 0) :
    pick p dims = pick q dims :=
  List.map_congr_left h

/-- Coordinates that have moved are found where they are now. -/
theorem pick_map_congr {q : List α} {dims : List Nat} {f : Nat → Nat}
    (h : ∀ d ∈ dims, p.getD (f d) 0 = q.getD d 0) : pick p (dims.map f) = pick q dims := by
  unfold pick
  rw [List.map_map]
  exact List.map_congr_left h

/-- Coordinates found by their positions among those that have been picked. -/
theorem pick_map_idxOf {kept dims : List Nat} (h : ∀ d ∈ dims, d ∈ kept) :
    pick (pick w kept) (dims.map kept.idxOf) = pick w dims :=
  pick_map_congr fun d hd => getD_pick_idxOf (h d hd)

theorem pick_copyAround {c : Nat} {S T : List Nat} (hk : k ≤ p.length) (hw : w.length = c)
    (hT : ∀ t ∈ T, t < c) :
    pick (p.take k ++ w ++ p.drop (k + s)) (copyAround k s c S T) =
      pick p (S.filter fun d => d < k) ++ pick w T ++ pick p (S.filter fun d => k + s ≤ d) := by
  rw [copyAround, pick_append, pick_append]
  congr 1
  · congr 1
    · refine pick_congr fun d hd => ?_
      have hlead := of_decide_eq_true (List.mem_filter.mp hd).2
      rw [getD_around hk, if_pos hlead]
    · refine pick_map_congr fun d hd => ?_
      have hinner := hT d hd
      rw [getD_around hk, if_neg (by omega), if_pos (by omega), Nat.add_sub_cancel]
  · refine pick_map_congr fun d hd => ?_
    have htrail := of_decide_eq_true (List.mem_filter.mp hd).2
    rw [getD_around hk, if_neg (by omega), if_neg (by omega), hw, Nat.add_sub_cancel,
      Nat.sub_add_cancel (by omega)]

/-- The coordinates at a list of dimensions are those before, inside and after. -/
theorem pick_inside {n : Nat} {S : List Nat} (hp : p.length = k + s + n)
    (hS : Increasing S (k + s + n)) :
    pick p S = pick p (S.filter fun d => d < k) ++ pick ((p.drop k).take s) (inside k s S) ++
      pick p (S.filter fun d => k + s ≤ d) := by
  have hlen : ((p.drop k).take s).length = s := by simp; omega
  have hwhole : p.take k ++ (p.drop k).take s ++ p.drop (k + s) = p := by
    rw [List.append_assoc, ← List.drop_drop, List.take_append_drop, List.take_append_drop]
  have hpick := pick_copyAround (s := s) (S := S) (T := inside k s S) (by omega : k ≤ p.length) hlen
    fun t ht => (mem_inside_iff.mp ht).1
  rwa [hwhole, copyAround_inside hS] at hpick

section Pieces

variable {n : Nat} {S : List Nat} (hp : p.length = k + s + n) (hS : Increasing S (k + s + n))

include hp hS

theorem take_pick : (pick p S).take (S.filter fun d => d < k).length =
    pick p (S.filter fun d => d < k) := by
  rw [pick_inside hp hS, List.append_assoc, List.take_left' length_pick]

theorem take_drop_pick :
    ((pick p S).drop (S.filter fun d => d < k).length).take (inside k s S).length =
      pick ((p.drop k).take s) (inside k s S) := by
  rw [pick_inside hp hS, List.append_assoc, List.drop_left' length_pick,
    List.take_left' length_pick]

theorem drop_pick :
    (pick p S).drop ((S.filter fun d => d < k).length + (inside k s S).length) =
      pick p (S.filter fun d => k + s ≤ d) := by
  rw [pick_inside hp hS, List.drop_left' (by simp)]

end Pieces

end Around

end SeparableTransforms
