import Rolex.ChainSpec

/-! Which table entry an operation works on: from the end of its window down, the
first entry whose own leaf starts at or below the key, else the entry at the
start of the window. A stored key stays reachable as long as the chain that
holds it is the one its own window leads to. -/

namespace Rolex
open AscendingMap BlockChain

variable {K V : Type} {N : ℕ} [LinearOrder K] [OrderTop K]

def target (chains : ℕ → List (List (K × V))) (k : K) (lo : ℕ) : ℕ → ℕ
  | 0 => lo
  | i + 1 =>
    if i + 1 > lo then
      if opens k ((chains (i + 1)).headD []) then i + 1 else target chains k lo i
    else lo

section Target

omit [OrderTop K]

variable {chains : ℕ → List (List (K × V))} {k : K} {lo hi : ℕ}

theorem target_le (h : lo ≤ hi) : target chains k lo hi ≤ hi := by
  induction hi with
  | zero => rw [target]; exact h
  | succ i ih =>
    rw [target]
    split_ifs with h1 h2
    · exact le_rfl
    · exact (ih (by omega)).trans (Nat.le_succ i)
    · exact h

theorem target_eq_iff (h : lo ≤ hi) {i : ℕ} :
    target chains k lo hi = i ↔ lo ≤ i ∧ i ≤ hi ∧
      (i = lo ∨ opens k ((chains i).headD []) = true) ∧
      ∀ j, i < j → j ≤ hi → opens k ((chains j).headD []) = false := by
  induction hi with
  | zero =>
    rw [target]
    constructor
    · rintro rfl
      exact ⟨le_rfl, h, Or.inl rfl, fun j h1 h2 => by omega⟩
    · rintro ⟨h1, h2, _⟩
      omega
  | succ n ih =>
    rw [target]
    split_ifs with h1 h2
    · constructor
      · rintro rfl
        exact ⟨h, le_rfl, Or.inr h2, fun j hj hj' => by omega⟩
      · rintro ⟨_, hi, _, hlater⟩
        by_contra hne
        exact Bool.false_ne_true ((hlater (n + 1) (by omega) le_rfl).symm.trans h2)
    · rw [ih (by omega)]
      have h2 := Bool.eq_false_iff.mpr h2
      constructor
      · rintro ⟨hlo, hi, hopen, hlater⟩
        refine ⟨hlo, by omega, hopen, fun j hj hj' => ?_⟩
        rcases Nat.lt_or_ge n j with hn | hn
        · rwa [show j = n + 1 by omega]
        · exact hlater j hj hn
      · rintro ⟨hlo, hi, hopen, hlater⟩
        have hin : i ≠ n + 1 := by
          rintro rfl
          rcases hopen with rfl | hopen
          · omega
          · exact Bool.false_ne_true (h2.symm.trans hopen)
        exact ⟨hlo, by omega, hopen, fun j hj hj' => hlater j hj (by omega)⟩
    · constructor
      · rintro rfl
        exact ⟨le_rfl, h, Or.inl rfl, fun j hj hj' => by omega⟩
      · rintro ⟨hlo, hi, _⟩
        omega

theorem target_congr (h : lo ≤ hi) {chains' : ℕ → List (List (K × V))}
    (hopen : ∀ j, lo < j → j ≤ hi →
      opens k ((chains' j).headD []) = opens k ((chains j).headD [])) :
    target chains' k lo hi = target chains k lo hi := by
  obtain ⟨hlo, hhi, hop, hlater⟩ := (target_eq_iff h).mp (rfl : target chains k lo hi = _)
  refine (target_eq_iff h).mpr ⟨hlo, hhi, ?_, fun j hj hj' => ?_⟩
  · by_cases hl : target chains k lo hi = lo
    · exact Or.inl hl
    · rw [hopen _ (by omega) hhi]
      exact Or.inr (hop.resolve_left hl)
  · rw [hopen j (by omega) hj']
    exact hlater j hj hj'

end Target

theorem Represents.pickEntry_ok {t : LeafTable} {alloc : LeafAllocator K V N} {slots : ℕ → List ℕ}
    {chains : ℕ → List (List (K × V))} (h : Represents t alloc slots chains) {k : K} (hk : k < ⊤)
    {lo hi : ℕ} (hle : lo ≤ hi) (hlt : hi < t.size) :
    t.pickEntry alloc k lo hi =
    .ok (target chains k lo hi, t.entryNum (target chains k lo hi)) := by
  induction hi with
  | zero => rw [LeafTable.pickEntry, target, h.entryLeaf_ok (by omega), ok_bind]
  | succ n ih =>
    rw [LeafTable.pickEntry, target]
    split
    · rw [h.entryLeaf_ok hlt, ok_bind, h.insertHere_entry hlt hk]
      split
      · rfl
      · exact ih (by omega) (by omega)
    · rw [h.entryLeaf_ok (by omega), ok_bind]

theorem Sound.search_ok {t : LeafTable} {alloc : LeafAllocator K V N} {slots : ℕ → List ℕ}
    {chains : ℕ → List (List (K × V))} (h : Sound t alloc slots chains) {k : K} (hk : k < ⊤)
    {lo hi : ℕ} (hle : lo ≤ hi) (hlt : hi < t.size) :
    t.search alloc k lo hi = .ok ((chains (target chains k lo hi)).flatten.lookup k) := by
  rw [LeafTable.search, if_pos hlt, h.toRepresents.pickEntry_ok hk hle hlt, ok_bind,
    h.searchEntry_ok ((target_le hle).trans_lt hlt) hk]

/-! ### Keys stay reachable -/

/-- `0 <= lo(k) <= hi(k) < table.size()`. -/
structure Windows (lo hi : K → ℕ) (size : ℕ) : Prop where
  le : ∀ k < ⊤, lo k ≤ hi k
  lt : ∀ k < ⊤, hi k < size

/-- Every key is stored where its window leads. -/
structure Homed (chains : ℕ → List (List (K × V))) (lo hi : K → ℕ) (size : ℕ) : Prop where
  below : ∀ i < size, ∀ e ∈ (chains i).flatten, e.1 < ⊤
  target : ∀ i < size, ∀ e ∈ (chains i).flatten, target chains e.1 (lo e.1) (hi e.1) = i

namespace Homed

variable {chains : ℕ → List (List (K × V))} {lo hi : K → ℕ} {size : ℕ} {k : K}

abbrev home (chains : ℕ → List (List (K × V))) (lo hi : K → ℕ) (k : K) : ℕ :=
  Rolex.target chains k (lo k) (hi k)

omit [LinearOrder K] [OrderTop K] in
theorem mem_update {i j : ℕ} {bs : List (List (K × V))} {e : K × V}
    (he : e ∈ (Function.update chains i bs j).flatten) :
    j = i ∧ e ∈ bs.flatten ∨ j ≠ i ∧ e ∈ (chains j).flatten := by
  by_cases hji : j = i
  · subst hji
    rw [Function.update_self] at he
    exact Or.inl ⟨rfl, he⟩
  · rw [Function.update_of_ne hji] at he
    exact Or.inr ⟨hji, he⟩

/-- Only the new first key of the entry of `k` may change the way of another key. That key
would be at or above `k`, so its window would start at or behind the window of `k`. -/
theorem home_insert (hw : Windows lo hi size) (hmono : ∀ a b, a ≤ b → b < ⊤ → lo a ≤ lo b)
    (ho : ∀ i < size, Ordered (chains i)) (hN : 2 ≤ N) (hk : k < ⊤) (v : V) {x : K} (hx : x < ⊤) :
    home (Function.update chains (home chains lo hi k)
      (BlockChain.insert N k v (chains (home chains lo hi k)))) lo hi x = home chains lo hi x := by
  set i := home chains lo hi k with hi'
  obtain ⟨hlo, hhi, hop, hlater⟩ := (target_eq_iff (hw.le k hk)).mp hi'.symm
  have hoi := ho i (hhi.trans_lt (hw.lt k hk))
  refine target_congr (hw.le x hx) fun j hj _ => ?_
  by_cases hji : j = i
  · subst hji
    rw [Function.update_self, Bool.eq_iff_iff]
    constructor
    · intro hnew
      rcases opens_head_insert hN hoi hnew with hold | ⟨hclosed, hkx⟩
      · exact hold
      · -- a key at or above `k` whose window starts before `i` does not exist
        rcases hop with heq | hop
        · exact absurd (hmono k x hkx hx) (by omega)
        · exact absurd (hclosed.symm.trans hop) Bool.false_ne_true
    · exact opens_head_insert_of_opens hN hoi
  · rw [Function.update_of_ne hji]

theorem insert (h : Homed chains lo hi size) (hw : Windows lo hi size)
    (hmono : ∀ a b, a ≤ b → b < ⊤ → lo a ≤ lo b) (ho : ∀ i < size, Ordered (chains i))
    (hN : 2 ≤ N) (hk : k < ⊤) (v : V) :
    Homed (Function.update chains (home chains lo hi k)
      (BlockChain.insert N k v (chains (home chains lo hi k)))) lo hi size := by
  have htarget := fun x (hx : x < ⊤) => home_insert hw hmono ho hN hk v hx
  have his : home chains lo hi k < size := (target_le (hw.le k hk)).trans_lt (hw.lt k hk)
  have hoi := ho _ his
  constructor
  · intro j hj e he
    rcases mem_update he with ⟨_, hm⟩ | ⟨_, hm⟩
    · rcases (mem_flatten_insert hoi).mp hm with rfl | hm
      · exact hk
      · exact h.below _ his e hm
    · exact h.below j hj e hm
  · intro j hj e he
    rcases mem_update he with ⟨hji, hm⟩ | ⟨_, hm⟩
    · rcases (mem_flatten_insert hoi).mp hm with rfl | hm
      · exact (htarget k hk).trans hji.symm
      · refine (htarget e.1 (h.below _ his e hm)).trans ?_
        rw [hji]
        exact h.target _ his e hm
    · exact (htarget e.1 (h.below j hj e hm)).trans (h.target j hj e hm)

omit [OrderTop K] in
theorem opens_head_update_chain {i : ℕ} (ho : Ordered (chains i)) (k : K) (v : V) (x : K) (j : ℕ) :
    opens x ((Function.update chains i (BlockChain.update k v (chains i)) j).headD []) =
      opens x ((chains j).headD []) := by
  by_cases hji : j = i
  · subst hji
    rw [Function.update_self, opens_head_update ho]
  · rw [Function.update_of_ne hji]

theorem home_update (hw : Windows lo hi size) {i : ℕ} (ho : Ordered (chains i)) (k : K) (v : V)
    {x : K} (hx : x < ⊤) :
    home (Function.update chains i (BlockChain.update k v (chains i))) lo hi x =
    home chains lo hi x :=
  target_congr (hw.le x hx) fun j _ _ => opens_head_update_chain ho k v x j

omit [OrderTop K] in
theorem mem_update_chain {i j : ℕ} (ho : Ordered (chains i)) {k : K} {v : V} {e : K × V}
    (he : e ∈ (Function.update chains i (BlockChain.update k v (chains i)) j).flatten) :
    ∃ e' ∈ (chains j).flatten, e'.1 = e.1 := by
  rcases mem_update he with ⟨hji, hm⟩ | ⟨_, hm⟩
  · rw [flatten_update ho] at hm
    have hm := List.mem_map_of_mem (f := Prod.fst) hm
    rw [map_fst_assign] at hm
    rw [hji]
    exact List.mem_map.mp hm
  · exact ⟨e, hm, rfl⟩

theorem update (h : Homed chains lo hi size) (hw : Windows lo hi size)
    (ho : ∀ i < size, Ordered (chains i)) {i : ℕ} (his : i < size) (k : K) (v : V) :
    Homed (Function.update chains i (BlockChain.update k v (chains i))) lo hi size := by
  have hoi := ho i his
  constructor
  · intro j hj e he
    obtain ⟨e', he', heq⟩ := mem_update_chain hoi he
    exact heq ▸ h.below j hj e' he'
  · intro j hj e he
    obtain ⟨e', he', heq⟩ := mem_update_chain hoi he
    have hlt : e.1 < ⊤ := heq ▸ h.below j hj e' he'
    refine (home_update hw hoi k v hlt).trans ?_
    rw [← heq]
    exact h.target j hj e' he'

/-- Removing `k` from the entry `i` makes a key of its synonym leaves unreachable: the leaf of
the entry is emptied, and the window of that key starts before `i`. -/
def StrandsIn (chains : ℕ → List (List (K × V))) (lo : K → ℕ) (k : K) (i : ℕ) : Prop :=
  (chains i).headD [] ≠ [] ∧ without k ((chains i).headD []) = [] ∧
    ∃ e ∈ (chains i).flatten, e.1 ≠ k ∧ lo e.1 < i

omit [OrderTop K] in
theorem opens_head_of_not_strands {i : ℕ} (ho : Ordered (chains i))
    (hs : ¬StrandsIn chains lo k i) {e : K × V} (he : e ∈ (chains i).flatten) (hek : e.1 ≠ k)
    (hlo : lo e.1 < i) (hold : opens e.1 ((chains i).headD []) = true) :
    opens e.1 ((BlockChain.remove k (chains i)).headD []) = true := by
  refine opens_head_of_mem (ordered_remove ho) ((mem_flatten_remove ho).mpr ⟨he, hek⟩) fun hnil =>
    ?_
  rw [head_remove ho] at hnil
  obtain ⟨x, rest, hx, _⟩ := (opens_iff _ _).mp hold
  exact hs ⟨by rw [hx]; simp, hnil, e, he, hek, hlo⟩

omit [OrderTop K] in
theorem opens_of_opens_head_remove {i : ℕ} (ho : Ordered (chains i)) {x : K}
    (h : opens x ((BlockChain.remove k (chains i)).headD []) = true) :
    opens x ((chains i).headD []) = true := by
  rw [head_remove ho] at h
  obtain ⟨e, rest, he, hex⟩ := (opens_iff x _).mp h
  obtain ⟨b, bs, hb⟩ := List.exists_cons_of_ne_nil ho.ne_nil
  have ha := ho.ascending
  rw [hb] at he ⊢
  rw [hb, List.flatten_cons, ascending_append] at ha
  have hm : e ∈ without k b := by
    rw [List.headD_cons] at he
    rw [he]
    exact List.mem_cons_self
  exact opens_of_mem ha.1 (mem_without.mp hm).1 hex

omit [OrderTop K] in
theorem opens_head_remove_chain {i : ℕ} (ho : Ordered (chains i)) {x : K} {j : ℕ}
    (h : opens x ((Function.update chains i (BlockChain.remove k (chains i)) j).headD []) = true) :
    opens x ((chains j).headD []) = true := by
  by_cases hji : j = i
  · subst hji
    rw [Function.update_self] at h
    exact opens_of_opens_head_remove ho h
  · rwa [Function.update_of_ne hji] at h

theorem home_remove_le (hw : Windows lo hi size) {i : ℕ} (ho : Ordered (chains i)) {x : K}
    (hx : x < ⊤) : home (Function.update chains i (BlockChain.remove k (chains i))) lo hi x ≤
    home chains lo hi x := by
  set chains' := Function.update chains i (BlockChain.remove k (chains i)) with hc'
  obtain ⟨_, hhi', hop', _⟩ := (target_eq_iff (hw.le x hx)).mp (rfl : home chains' lo hi x = _)
  obtain ⟨hlo, _, _, hlater⟩ := (target_eq_iff (hw.le x hx)).mp (rfl : home chains lo hi x = _)
  by_contra hlt
  have hopen := opens_head_remove_chain ho (hop'.resolve_left (by omega))
  rw [hlater _ (not_le.mp hlt) hhi'] at hopen
  cases hopen

/-- A removal raises the first key of one entry. It turns no key away from it that stays. -/
theorem remove (h : Homed chains lo hi size) (hw : Windows lo hi size)
    (ho : ∀ i < size, Ordered (chains i)) {i : ℕ} (his : i < size)
    (hs : ¬StrandsIn chains lo k i) :
    Homed (Function.update chains i (BlockChain.remove k (chains i))) lo hi size := by
  have hoi := ho i his
  set chains' := Function.update chains i (BlockChain.remove k (chains i)) with hc'
  have hself : chains' i = BlockChain.remove k (chains i) := Function.update_self ..
  have hother : ∀ j, j ≠ i → chains' j = chains j := fun j hj => Function.update_of_ne hj _ _
  have hsub : ∀ j < size, ∀ e ∈ (chains' j).flatten, e ∈ (chains j).flatten ∧
      (j = i → e.1 ≠ k) := by
    intro j hj e he
    rcases mem_update he with ⟨hji, hm⟩ | ⟨hji, hm⟩
    · have hm := (mem_flatten_remove hoi).mp hm
      exact ⟨hji ▸ hm.1, fun _ => hm.2⟩
    · exact ⟨hm, fun hji' => absurd hji' hji⟩
  constructor
  · exact fun j hj e he => h.below j hj e (hsub j hj e he).1
  · intro j hj e he
    obtain ⟨hold, hek⟩ := hsub j hj e he
    have hlt := h.below j hj e hold
    obtain ⟨hlo, hhi, hop, hlater⟩ := (target_eq_iff (hw.le e.1 hlt)).mp (h.target j hj e hold)
    refine (target_eq_iff (hw.le e.1 hlt)).mpr ⟨hlo, hhi, ?_, fun m hm hm' => ?_⟩
    · by_cases hjlo : j = lo e.1
      · exact Or.inl hjlo
      · right
        have hop := hop.resolve_left hjlo
        by_cases hji : j = i
        · subst hji
          rw [hself]
          exact opens_head_of_not_strands hoi hs hold (hek rfl) (by omega) hop
        · rwa [hother j hji]
    · have hclosed := hlater m hm hm'
      by_cases hmi : m = i
      · subst hmi
        rw [hself, Bool.eq_false_iff]
        exact fun hopen =>
          Bool.false_ne_true (hclosed.symm.trans (opens_of_opens_head_remove hoi hopen))
      · rwa [hother m hmi]

end Homed
end Rolex
