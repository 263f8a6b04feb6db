import Rolex.TrainRun
import Rolex.TrainedLeaves
import Rolex.PredictWindow
import Rolex.IndexRuns

/-! The index that `train` leaves: every submodel stores its segment in leaves of its own, and in
exact arithmetic its line fits the segment. -/

namespace Rolex
open AscendingMap BlockChain

variable {F V : Type} {N : ℕ} {fmt : DoubleFormat F} {epsilon : ℕ}
  {raw : ℕ → Fin kSynonymMax → TableEntry}

/-- The submodel `m` was built from `seg`, and nothing happened to it since. -/
structure Laid (alloc : LeafAllocator Key V N) (seg : List (Key × V)) (m : SubModel F) : Prop where
  sound : Sound m.ltable alloc (fun _ => []) (fun j => [SubModel.block N seg j])
  size : m.ltable.size = SubModel.leafCount N seg.length
  capacity : m.capacity = seg.length
  available : m.ltable.available = 1

theorem Laid.of_filled {base alloc : LeafAllocator Key V N} {seg : List (Key × V)} {m : SubModel F}
    (h : SubModel.Filled base seg m.ltable alloc) (hasc : Ascending seg)
    (hcap : m.capacity = seg.length) : Laid alloc seg m := ⟨h.sound hasc, h.size, hcap, h.available⟩

theorem Laid.congr {alloc alloc' : LeafAllocator Key V N} {seg : List (Key × V)} {m : SubModel F}
    (h : Laid alloc seg m) (hu : alloc.used ≤ alloc'.used)
    (hleaves : ∀ p < alloc.used, alloc'.leaves p = alloc.leaves p) (hfresh : alloc'.Fresh) :
    Laid alloc' seg m where
  sound := ⟨h.sound.toRepresents.transport hu hfresh.usedLe
    (fun i hi p hp => hleaves p (h.sound.numsUsed i hi p hp))
    (fun p hp hlt => by
      obtain ⟨leaf, hleaf⟩ := hfresh.blank p hp hlt
      rw [hleaf]
      exact Leaf.construct_holds leaf), h.sound.ordered, h.sound.idle⟩
  size := h.size
  capacity := h.capacity
  available := h.available

def lastKey (seg : List (Key × V)) : Key := (seg.getLast?.map Prod.fst).getD 0

theorem appendSegment_ok {r r' : RolexIndex F V N} {opt : PLR} {seg : List (Key × V)}
    (hok : r.appendSegment fmt raw opt seg = .ok r') :
    ∃ m, SubModel.construct (raw r.models.length)
      (fmt.round (opt.getSegment.getSlopeIntercept fmt).1)
        (fmt.round (opt.getSegment.getSlopeIntercept fmt).2) seg r.RM.leafAllocator =
        .ok (m, r'.RM.leafAllocator) ∧
      r.RM.modelAllocator.storeModel (m.serialize fmt) (lastKey seg) = .ok r'.RM.modelAllocator ∧
      r'.models = r.models ++ [m] ∧ r'.modelKeys = r.modelKeys ++ [lastKey seg] := by
  rw [RolexIndex.appendSegment, RolexIndex.appendModel, lastKey] at *
  cases hlast : seg.getLast? with
  | none =>
    rw [hlast] at hok
    cases hok
  | some last =>
    rw [hlast] at hok
    obtain ⟨⟨m, leafAlloc⟩, hm, hok⟩ := bind_eq_ok hok
    obtain ⟨alloc, hstore, hok⟩ := bind_eq_ok hok
    obtain rfl := Except.ok.inj hok
    exact ⟨m, hm, hstore, rfl, rfl⟩

/-- The submodels of `r` were built from `segs`, with the leaves of `base` from `base.used` on. -/
structure Layout (base : LeafAllocator Key V N) (segs : List (List (Key × V)))
    (r : RolexIndex F V N) : Prop where
  fresh : r.RM.leafAllocator.Fresh
  allocated : r.RM.leafAllocator.allocated = base.allocated
  used : r.RM.leafAllocator.used ≤ base.used + segs.flatten.length
  length : r.models.length = segs.length
  keys : r.modelKeys = segs.map lastKey
  laid : ∀ (i : ℕ) (m : SubModel F) (seg : List (Key × V)), r.models[i]? = some m →
    segs[i]? = some seg →
    Laid r.RM.leafAllocator seg m
  apart : ∀ (i j : ℕ) (m m' : SubModel F), i < j → r.models[i]? = some m → r.models[j]? = some m' →
    ∀ a < m.ltable.size, ∀ b < m'.ltable.size, m.ltable.entryNum a < m'.ltable.entryNum b

theorem leafCount_le {n : ℕ} (h : 0 < n) : SubModel.leafCount N n ≤ n := by
  have := Nat.div_le_self (n - 1) N
  rw [SubModel.leafCount]
  omega

theorem getElem?_concat {α : Type} {l : List α} {a b : α} {i : ℕ} (h : (l ++ [a])[i]? = some b) :
    l[i]? = some b ∨ i = l.length ∧ b = a := by
  rcases lt_trichotomy i l.length with hlt | rfl | hlt
  · rw [List.getElem?_append_left hlt] at h
    exact Or.inl h
  · rw [List.getElem?_concat_length] at h
    exact Or.inr ⟨rfl, (Option.some.inj h).symm⟩
  · rw [List.getElem?_eq_none (by rw [List.length_append, List.length_singleton]; omega)] at h
    cases h

theorem Layout.append {base : LeafAllocator Key V N} {segs : List (List (Key × V))}
    {r r' : RolexIndex F V N} (h : Layout base segs r) (hN : 0 < N) {seg : List (Key × V)}
    (hne : seg ≠ []) (hasc : Ascending seg) (hbelow : ∀ e ∈ seg, e.1 < ⊤) {opt : PLR}
    (hok : r.appendSegment fmt raw opt seg = .ok r') : Layout base (segs ++ [seg]) r' := by
  obtain ⟨m, hm, _, hmodels, hkeys⟩ := appendSegment_ok hok
  obtain ⟨_, hcap, hfill⟩ := (SubModel.construct_ok hN h.fresh hasc hbelow _ _ _).2 _ hm
  have hfill : SubModel.Filled r.RM.leafAllocator seg m.ltable r'.RM.leafAllocator := hfill
  have hu := hfill.used
  have hlen : r.models.length = segs.length := h.length
  have hpos : 0 < seg.length := List.length_pos_iff.mpr hne
  have hused : r.RM.leafAllocator.used ≤ r'.RM.leafAllocator.used := by omega
  refine ⟨hfill.fresh, hfill.allocated.trans h.allocated, ?_, ?_, ?_, ?_, ?_⟩
  · have hle := leafCount_le (N := N) hpos
    have hold := h.used
    have hsize := hfill.size
    rw [List.flatten_append, List.flatten_singleton, List.length_append]
    omega
  · rw [hmodels, List.length_append, List.length_append, hlen]
    rfl
  · rw [hkeys, h.keys, List.map_append, List.map_singleton]
  · intro i m' seg' hi hseg
    rw [hmodels] at hi
    rcases getElem?_concat hi with hi | ⟨rfl, rfl⟩
    · rcases getElem?_concat hseg with hseg | ⟨rfl, rfl⟩
      · exact (h.laid i m' seg' hi hseg).congr hused hfill.leaves hfill.fresh
      · rw [List.getElem?_eq_none hlen.le] at hi
        cases hi
    · rw [hlen, List.getElem?_concat_length] at hseg
      obtain rfl := Option.some.inj hseg
      exact .of_filled hfill hasc hcap
  · intro i j m₁ m₂ hij hi hj a ha b hb
    rw [hmodels] at hi hj
    have hil : ∀ {x : SubModel F}, r.models[i]? = some x → i < r.models.length := fun hx =>
      (List.getElem?_eq_some_iff.mp hx).1
    rcases getElem?_concat hj with hj | ⟨rfl, rfl⟩
    · have hjl := (List.getElem?_eq_some_iff.mp hj).1
      rcases getElem?_concat hi with hi | ⟨rfl, rfl⟩
      · exact h.apart i j m₁ m₂ hij hi hj a ha b hb
      · omega
    · rcases getElem?_concat hi with hi | ⟨rfl, rfl⟩
      · have hlaid := h.laid i m₁ _ hi (List.getElem?_eq_getElem (by rw [← hlen]; exact hil hi))
        have hlt := hlaid.sound.numsUsed a ha _ List.mem_cons_self
        rw [hfill.nums b hb]
        omega
      · omega

theorem Appended.layout {r r' : RolexIndex F V N} {segs : List (List (Key × V))}
    (h : Appended fmt epsilon raw r segs r') (hN : 0 < N) (hfresh : r.RM.leafAllocator.Fresh)
    (hmodels : r.models = []) (hkeys : r.modelKeys = []) (hasc : Ascending segs.flatten)
    (hbelow : ∀ e ∈ segs.flatten, e.1 < ⊤) : Layout r.RM.leafAllocator segs r' := by
  induction h with
  | none => exact ⟨hfresh, rfl, Nat.le_add_right _ _, by rw [hmodels]; rfl, by rw [hkeys]; rfl,
      fun i m seg hi _ => by simp [hmodels] at hi, fun i j m m' _ hi => by simp [hmodels] at hi⟩
  | append h hne hend hok ih =>
    rw [List.flatten_append, List.flatten_singleton] at hasc hbelow
    obtain ⟨h₁, h₂, _⟩ := ascending_append.mp hasc
    exact (ih h₁ fun e he => hbelow e (List.mem_append_left _ he)).append hN hne h₂
      (fun e he => hbelow e (List.mem_append_right _ he)) hok

def segment (segs : List (List (Key × V))) (i : ℕ) : List (Key × V) := segs.getD i []

theorem IndexSound.of_lt {r : RolexIndex F V N} {chains : ℕ → ℕ → List (List (Key × V))}
    (hsound : ∀ (i : ℕ) (m : SubModel F), r.models[i]? = some m →
      Sound m.ltable r.RM.leafAllocator (fun _ => []) (chains i))
    (hlt : ∀ (i j : ℕ) (m m' : SubModel F), i < j → r.models[i]? = some m → r.models[j]? = some m' →
      ∀ a < m.ltable.size, ∀ b < m'.ltable.size, m.ltable.entryNum a < m'.ltable.entryNum b) :
    IndexSound r (fun _ _ => []) chains where
  sound := hsound
  apart := fun i j m m' hij hm hm' a ha b hb p hp hp' => by
    obtain rfl := List.mem_singleton.mp hp
    have heq := List.mem_singleton.mp hp'
    rcases lt_or_gt_of_ne hij with hless | hless
    · exact (hlt i j m m' hless hm hm' a ha b hb).ne heq
    · exact (hlt j i m' m hless hm' hm b hb a ha).ne heq.symm

theorem Layout.indexSound {base : LeafAllocator Key V N} {segs : List (List (Key × V))}
    {r : RolexIndex F V N} (h : Layout base segs r) :
    IndexSound r (fun _ _ => []) (fun i a => [SubModel.block N (segment segs i) a]) := by
  refine IndexSound.of_lt (fun i m hm => ?_) h.apart
  have hi : i < segs.length := by
    have := (List.getElem?_eq_some_iff.mp hm).1
    have hlen := h.length
    omega
  rw [segment, List.getD_eq_getElem _ _ hi]
  exact (h.laid i m _ hm (List.getElem?_eq_getElem hi)).sound

/-! ### The lines -/

theorem SegmentEnd.fits (hfmt : fmt.Exact) {seg : List (Key × V)} {opt : PLR} (hE : 1 ≤ epsilon)
    (h : SegmentEnd (epsilon - 1) seg opt) (hne : seg ≠ []) (hlen : seg.length < 2 ^ 63) :
    0 ≤ (opt.getSegment.getSlopeIntercept fmt).1 ∧
      FitsKeys fmt ⟨fmt.round (opt.getSegment.getSlopeIntercept fmt).1,
        fmt.round (opt.getSegment.getSlopeIntercept fmt).2⟩ epsilon (seg.map Prod.fst) := by
  obtain ⟨s, hacc, hs⟩ := h
  have hpts : points seg ≠ [] := by
    rw [← List.length_pos_iff, length_points]
    exact List.length_pos_iff.mpr hne
  have hy : ∀ q ∈ points seg, q.2 < 2 ^ 63 := by
    intro q hq
    obtain ⟨j, hj, rfl⟩ := exists_of_mem_points hq
    exact hj.trans hlen
  obtain ⟨hfits, hslope⟩ := hacc.fits hfmt hpts hy hs
  constructor
  · refine hslope (List.pairwise_iff_getElem.mpr fun i j hi hj hij => ?_)
    rw [length_points] at hi hj
    rw [getElem_points hi _, getElem_points hj _]
    exact hij.le
  · intro j hj
    rw [List.length_map] at hj
    have hmem : (seg[j].1.val, j) ∈ points seg := by
      have hj' : j < (points seg).length := by rw [length_points]; exact hj
      rw [← getElem_points hj hj']
      exact List.getElem_mem _
    obtain ⟨hlow, hup⟩ := hfits _ hmem
    have hlow' := (le_max_right _ _).trans hlow
    have hcast : ((epsilon - 1 : ℕ) : ℚ) = (epsilon : ℚ) - 1 := by
      rw [Nat.cast_sub hE, Nat.cast_one]
    rw [hcast] at hlow' hup
    rw [List.getElem_map, hfmt.value_round, hfmt.value_round, abs_le]
    constructor <;> linarith

theorem Appended.built {r r' : RolexIndex F V N} {segs : List (List (Key × V))}
    (h : Appended fmt epsilon raw r segs r') (hmodels : r.models = []) :
    r'.models.length = segs.length ∧
    ∀ (i : ℕ) (m : SubModel F) (seg : List (Key × V)), r'.models[i]? = some m →
      segs[i]? = some seg →
      seg ≠ [] ∧ ∃ (opt : PLR) (raw' : Fin kSynonymMax →
        TableEntry) (alloc alloc' : LeafAllocator Key V N), SegmentEnd (epsilon - 1) seg opt ∧
        SubModel.construct raw' (fmt.round (opt.getSegment.getSlopeIntercept fmt).1)
          (fmt.round (opt.getSegment.getSlopeIntercept fmt).2) seg alloc = .ok (m, alloc') := by
  induction h with
  | none => exact ⟨by rw [hmodels]; rfl, fun i m seg hi _ => by simp [hmodels] at hi⟩
  | @append segs seg r₁ r₂ opt h hne hend hok ih =>
    obtain ⟨hlen, hold⟩ := ih
    obtain ⟨m, hm, _, hmodels', _⟩ := appendSegment_ok hok
    refine ⟨by rw [hmodels', List.length_append, List.length_append, hlen]; rfl,
      fun i m' seg' hi hseg => ?_⟩
    rw [hmodels'] at hi
    rcases getElem?_concat hi with hi | ⟨rfl, rfl⟩
    · rcases getElem?_concat hseg with hseg | ⟨rfl, rfl⟩
      · exact hold i m' seg' hi hseg
      · rw [List.getElem?_eq_none hlen.le] at hi
        cases hi
    · rw [hlen, List.getElem?_concat_length] at hseg
      obtain rfl := Option.some.inj hseg
      exact ⟨hne, opt, _, _, _, hend, hm⟩

theorem Appended.lines (hfmt : fmt.Exact) (hE : 1 ≤ epsilon) {r r' : RolexIndex F V N}
    {segs : List (List (Key × V))} (h : Appended fmt epsilon raw r segs r')
    (hmodels : r.models = []) (hlen : segs.flatten.length < 2 ^ 63) {i : ℕ} {m : SubModel F}
    {seg : List (Key × V)} (hm : r'.models[i]? = some m) (hseg : segs[i]? = some seg) :
    0 ≤ fmt.value m.model.slope ∧ FitsKeys fmt m.model epsilon (seg.map Prod.fst) ∧
      m.capacity = seg.length ∧ seg ≠ [] := by
  obtain ⟨hne, opt, raw', alloc, alloc', hend, hbuilt⟩ := (h.built hmodels).2 i m seg hm hseg
  obtain ⟨hmodel, hcap⟩ := SubModel.construct_model hbuilt
  have hle : seg.length ≤ segs.flatten.length :=
    (List.sublist_flatten_of_mem (List.mem_of_getElem? hseg)).length_le
  obtain ⟨hslope, hfits⟩ := hend.fits hfmt hE hne (hle.trans_lt hlen)
  have hmodel' : m.model = ⟨_, _⟩ := hmodel
  rw [hmodel']
  exact ⟨by rw [hfmt.value_round]; exact hslope, hfits, hcap, hne⟩

theorem Appended.sizes {r r' : RolexIndex F V N} {segs : List (List (Key × V))}
    (h : Appended fmt epsilon raw r segs r') (hN : 0 < N) (hfresh : r.RM.leafAllocator.Fresh)
    (hmodels : r.models = []) (hkeys : r.modelKeys = []) (hasc : Ascending segs.flatten)
    {i : ℕ} {m : SubModel F} {seg : List (Key × V)} (hm : r'.models[i]? = some m)
    (hseg : segs[i]? = some seg) : m.ltable.size = SubModel.leafCount N seg.length := by
  cases h with
  | none => simp [hmodels] at hm
  | @append segs last r₁ _ opt h hne hend hok =>
    rw [List.flatten_append, List.flatten_singleton] at hasc
    obtain ⟨h₁, h₂, hlt⟩ := ascending_append.mp hasc
    have hbelow : ∀ e ∈ segs.flatten, e.1 < ⊤ := fun e he =>
      (hlt e he _ (List.head_mem hne)).trans_le le_top
    have hlay := h.layout hN hfresh hmodels hkeys h₁ hbelow
    obtain ⟨m', hm', _, hmodels', _⟩ := appendSegment_ok hok
    rw [hmodels'] at hm
    rcases getElem?_concat hm with hm | ⟨rfl, rfl⟩
    · rcases getElem?_concat hseg with hseg | ⟨rfl, rfl⟩
      · exact (hlay.laid i m seg hm hseg).size
      · rw [List.getElem?_eq_none hlay.length.le] at hm
        cases hm
    · rw [hlay.length, List.getElem?_concat_length] at hseg
      obtain rfl := Option.some.inj hseg
      exact (SubModel.construct_kept hN hlay.fresh h₂ hm').size

end Rolex
