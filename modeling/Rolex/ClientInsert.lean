import Rolex.ClientSearch
import Rolex.IndexContents

/-!
`LearnedCache::insert` after inserts and updates on the memory node. A compute node writes the own
leaf that the key belongs to, without a look at its synonym leaves.
-/

namespace Rolex
open Bytes AscendingMap BlockChain

variable {F V : Type} {N : ℕ} {fmt : DoubleFormat F} {epsilon : ℕ}

/-! ### The loop over the window -/

section Leaves

variable {t t₀ : LeafTable} {alloc : LeafAllocator Key V N} {slots : ℕ → List ℕ}
  {chains : ℕ → List (List (Key × V))} {k : Key}

theorem insertLeaves_of_true (h : Represents t alloc slots chains) (hsize : t₀.size = t.size)
    (hnum : t₀.entryNum = t.entryNum) (hN : 0 < N) (hk : k < ⊤) {lo : ℕ} {v : V}
    {alloc' : LeafAllocator Key V N} {count : ℕ} (hc : lo + count ≤ t.size)
    (hok : LearnedCache.insertLeaves alloc k v
      (((t₀.table.zipIdx.drop lo).take count).map fun q => (⟨q.2, q.1⟩ : LeafAddr)).reverse = .ok
      (true, alloc')) :
    ∃ i, lo ≤ i ∧ i < lo + count ∧ opens k ((chains i).headD []) = true ∧
    ((chains i).headD []).length < N ∧
      (∀ j, i < j → j < lo + count → opens k ((chains j).headD []) = false) ∧
      alloc' = alloc.write (t.entryNum i) ((alloc.leaves (t.entryNum i)).insertNotFull k v).2 := by
  induction count with
  | zero =>
    rw [List.take_zero] at hok
    cases hok
  | succ count ih =>
    have hi : lo + count < t.size := by omega
    obtain ⟨a, hnuma, hread, hwindow⟩ := window_succ h hsize hnum hi
    rw [hwindow, LearnedCache.insertLeaves, hread, ok_bind, h.insertHere_entry hi hk, hnuma] at hok
    split at hok
    · rename_i hopen
      split at hok
      · cases hok
      · rename_i hfull
        obtain ⟨_, rfl⟩ := Prod.mk.inj (Except.ok.inj hok)
        have hroom : ((chains (lo + count)).headD []).length ≠ N := fun hlen =>
          hfull (((h.holds_entry hi).isfull_iff hN).mpr hlen)
        exact ⟨lo + count, Nat.le_add_right _ _, Nat.lt_succ_self _, hopen,
          lt_of_le_of_ne (h.holds_entry hi).length_le hroom, fun j h1 h2 => by omega, rfl⟩
    · rename_i hopen
      obtain ⟨i, hlo, hhi, hopens, hroom, hlater, halloc⟩ := ih (by omega) hok
      refine ⟨i, hlo, by omega, hopens, hroom, fun j h1 h2 => ?_, halloc⟩
      rcases eq_or_lt_of_le (Nat.lt_succ_iff.mp h2) with rfl | hlt
      · exact Bool.eq_false_iff.mpr hopen
      · exact hlater j h1 hlt

end Leaves

/-! ### The write -/

section Write

variable {K : Type} [LinearOrder K] [OrderTop K] {t : LeafTable} {alloc : LeafAllocator K V N}
  {slots : ℕ → List ℕ} {chains : ℕ → List (List (K × V))} {k : K} {i lo hi : ℕ}

def SynonymOpens (t : LeafTable) (alloc : LeafAllocator K V N) (k : K) (i : ℕ) : Prop :=
  ∃ leaves, t.chainLeaves alloc i = .ok leaves ∧
    ∃ p ∈ leaves.tail, (alloc.leaves p).insertHere k = true

theorem Represents.synonymOpens_iff (h : Represents t alloc slots chains) (hi : i < t.size)
    (hk : k < ⊤) : SynonymOpens t alloc k i ↔ ∃ b ∈ (chains i).tail, opens k b = true := by
  have hf := h.holds i hi
  obtain ⟨b, rest, hc⟩ := List.exists_cons_of_ne_nil (h.chain_ne_nil hi)
  rw [hc] at hf ⊢
  rw [LeafTable.chainNums, List.forall₂_cons] at hf
  rw [SynonymOpens, h.chainLeaves_ok hi, List.tail_cons]
  obtain ⟨hblock, hleaf⟩ := Represents.exists_of_forall₂ hf.2
  constructor
  · rintro ⟨leaves, hl, p, hp, hopen⟩
    obtain rfl := Except.ok.inj hl
    obtain ⟨es, hes, hpe⟩ := hblock p hp
    rw [hpe.insertHere_iff hk, ← opens_iff] at hopen
    exact ⟨es, hes, hopen⟩
  · rintro ⟨es, hes, hopen⟩
    obtain ⟨p, hp, hpe⟩ := hleaf es hes
    rw [opens_iff, ← hpe.insertHere_iff hk] at hopen
    exact ⟨_, rfl, p, hp, hopen⟩

theorem Sound.ownWrite (h : Sound t alloc slots chains) (hi : i < t.size) (hk : k < ⊤)
    (hroom : ((chains i).headD []).length < N) (hnone : (chains i).flatten.lookup k = none)
    (v : V) :
    Represents t (alloc.write (t.entryNum i) ((alloc.leaves (t.entryNum i)).insertNotFull k v).2)
    slots
      (Function.update chains i (put k v ((chains i).headD []) :: (chains i).tail)) := by
  obtain ⟨b, rest, hc⟩ := List.exists_cons_of_ne_nil (h.chain_ne_nil hi)
  have hb := h.holds_entry hi
  have hown : b.lookup k = none := by
    rw [hc, List.flatten_cons, List.lookup_append] at hnone
    exact Option.or_eq_none_iff.mp hnone |>.1
  have hfirst : chains i = [] ++ b :: rest := hc
  rw [hc] at hroom hb ⊢
  exact h.toRepresents.write hi rfl hfirst List.length_nil
    (Leaf.insertNotFull_holds hb hk hown hroom v)

/-- Where no synonym leaf is nearer, the write is the insert of the memory node. -/
theorem Sound.clientStep (h : Sound t alloc slots chains) (hN : Even N) (hN0 : 0 < N)
    (hi : i < t.size) (hk : k < ⊤) (hroom : ((chains i).headD []).length < N)
    (hnone : (chains i).flatten.lookup k = none)
    (hclosed : ∀ b ∈ (chains i).tail, opens k b = false) (v : V) :
    Step t alloc slots chains i (put k v ((chains i).headD []) :: (chains i).tail) t
      (alloc.write (t.entryNum i) ((alloc.leaves (t.entryNum i)).insertNotFull k v).2) slots := by
  obtain ⟨pre, b, post, npre, p, npost, f⟩ := h.toRepresents.exists_focus hi k
  have hpre : pre = [] := by
    by_contra hne
    obtain ⟨c, pre, rfl⟩ := List.exists_cons_of_ne_nil hne
    have hopen := f.located.opens_block (List.cons_ne_nil _ _)
    rw [hclosed b (by rw [f.located.eq]; simp)] at hopen
    cases hopen
  subst hpre
  obtain ⟨rfl, rfl, rfl⟩ := f.first
  have hc : chains i = b :: post := f.located.eq
  have hwrite := h.ownWrite hi hk hroom hnone v
  have hins : BlockChain.insert N k v (chains i) = put k v b :: post := by
    rw [hc, List.headD_cons] at hroom
    rw [BlockChain.insert, f.located.edit_eq, grow, if_pos hroom]
    rfl
  have hN2 : 2 ≤ N := by obtain ⟨m, rfl⟩ := hN; omega
  have ho := ordered_insert hN2 (h.ordered i hi) hnone v
  rw [hins] at ho
  rw [hc, List.headD_cons, List.tail_cons] at hwrite ⊢
  exact ⟨⟨hwrite, ordered_update_chain h.ordered ho, h.idle⟩, rfl, rfl, rfl, le_rfl,
    fun q hq _ => alloc.write_leaves_ne (ne_of_mem_of_not_mem f.mem_nums hq).symm _,
    fun _ _ _ hp => Or.inl hp⟩

theorem Sound.stray_update (h : Sound t alloc slots chains) (hi : i < t.size) (hk : k < ⊤)
    (hroom : ((chains i).headD []).length < N) (hnone : (chains i).flatten.lookup k = none)
    (hopen : ∃ b ∈ (chains i).tail, opens k b = true) (v w : V) :
    ∃ alloc', t.updateSynonym
      (alloc.write (t.entryNum i) ((alloc.leaves (t.entryNum i)).insertNotFull k v).2) k w i
      (t.entryNum i) = .ok (false, t, alloc') := by
  have hr := h.ownWrite hi hk hroom hnone v
  obtain ⟨pre, b, post, npre, p, npost, f⟩ := hr.exists_focus hi k
  have heq := f.located.eq
  rw [Function.update_self] at heq
  have hmem : b ∈ (chains i).tail := by
    cases pre with
    | nil =>
      obtain ⟨c, hc, hopen⟩ := hopen
      obtain ⟨_, rfl⟩ := List.cons.inj heq
      rw [f.located.not_opens c hc] at hopen
      cases hopen
    | cons c pre =>
      rw [(List.cons.inj heq).2]
      simp
  have hb : b.lookup k = none := lookup_eq_none.mpr fun e he =>
    lookup_eq_none.mp hnone e (List.mem_flatten.mpr ⟨b, List.mem_of_mem_tail hmem, he⟩)
  rw [Sound.updateSynonym_eq hr h.idle hi hk f w, hb]
  exact ⟨_, rfl⟩

omit [OrderTop K] in
theorem target_ownWrite (hle : lo ≤ hi) (h : target chains k lo hi = i)
    (hopen : opens k ((chains i).headD []) = true) (v : V) (rest : List (List (K × V))) :
    target (Function.update chains i (put k v ((chains i).headD []) :: rest)) k lo hi = i := by
  rw [target_congr hle fun j _ _ => ?_, h]
  by_cases hji : j = i
  · subst hji
    rw [Function.update_self, List.headD_cons, opens_put_of_opens hopen, hopen]
  · rw [Function.update_of_ne hji]

end Write

/-! ### Inserting on the compute node -/

def RolexIndex.withLeaves (r : RolexIndex F V N) (alloc : LeafAllocator Key V N) :
    RolexIndex F V N :=
  { r with RM := { r.RM with leafAllocator := alloc } }

/-- The key was absent from `r`, and `r'` holds one copy of it that every operation sees. -/
structure TakenOnce (fmt : DoubleFormat F) (epsilon : ℕ) (r r' : RolexIndex F V N) (key : Key)
    (val : V) : Prop where
  absent : r.copies key = .ok []
  once : r'.copies key = .ok [val]
  search : r'.search fmt epsilon key = .ok (some val)
  update : ∀ v, ∃ r₂, r'.update fmt epsilon key v = .ok (true, r₂) ∧ r₂.copies key = .ok [v] ∧
    r₂.search fmt epsilon key = .ok (some v)
  insert : ∀ v, r'.insert fmt epsilon key v = .ok (false, r')

/-- The key is in no leaf of the index, and no synonym leaf of its entry starts at or below it. -/
structure Untaken (fmt : DoubleFormat F) (epsilon : ℕ) (r : RolexIndex F V N)
    (key : Key) : Prop where
  absent : r.copies key = .ok []
  closed : ∀ m p, r.model key = .ok m →
    m.ltable.pickEntry r.RM.leafAllocator key (m.window fmt epsilon N key).1
    (m.window fmt epsilon N key).2 = .ok p →
    ¬SynonymOpens m.ltable r.RM.leafAllocator key p.1

theorem RolexIndex.setTable_self {r : RolexIndex F V N} {i : ℕ} {m : SubModel F}
    (hm : r.models[i]? = some m) (alloc : LeafAllocator Key V N) :
    r.setTable i m m.ltable alloc = r.withLeaves alloc := by
  rw [RolexIndex.setTable, RolexIndex.withLeaves]
  have hset : r.models.set i m = r.models := List.ext_getElem? fun j => by
    rw [List.getElem?_set]
    split
    · rename_i hij
      subst hij
      rw [if_pos (List.getElem?_eq_some_iff.mp hm).1, hm]
    · rfl
  rw [hset]

section Index

variable {data : List (Key × V)} {r r' : RolexIndex F V N} {c : LearnedCache F}
  {slots : ℕ → ℕ → List ℕ} {chains : ℕ → ℕ → List (List (Key × V))} {key : Key}

theorem WindowNonneg.of_getLeafAddr {m : SubModel F} (hsmall : m.ltable.size < 2 ^ 31)
    {addrs : List LeafAddr} (hok : m.getLeafAddr fmt epsilon N key = .ok addrs) (hne : addrs ≠ []) :
    WindowNonneg fmt epsilon m N key := by
  have hsize : m.ltable.table.length = m.ltable.size := rfl
  rw [SubModel.getLeafAddr, LeafTable.getLeafAddr] at hok
  split at hok
  · rename_i hlt
    rcases le_or_gt ((m.model.predict fmt epsilon key m.capacity).lo / N % 2 ^ 32)
      ((m.model.predict fmt epsilon key m.capacity).hi / N % 2 ^ 32) with hle | hgt
    · constructor
      · rw [toInt32_of_mod (by omega)]
        exact Int.natCast_nonneg _
      · rw [toInt32_of_mod (by omega)]
        exact Int.natCast_nonneg _
    · rw [Nat.sub_eq_zero_of_le hgt] at hok
      exact absurd (Except.ok.inj hok).symm hne
  · cases hok

theorem Loaded.insert_of_true (h : Loaded fmt epsilon data r c) (hN : 0 < N)
    (hshape : SameShape r r') (hsound : IndexSound r' slots chains) (hk : key < ⊤) {val : V}
    {alloc' : LeafAllocator Key V N}
    (hok : c.insert fmt epsilon r'.RM.leafAllocator key val = .ok (true, alloc')) :
    ∃ m i, r'.models[r'.modelForKey key]? = some m ∧
      (m.window fmt epsilon N key).1 ≤ (m.window fmt epsilon N key).2 ∧
      (m.window fmt epsilon N key).2 < m.ltable.size ∧
      target (chains (r'.modelForKey key)) key (m.window fmt epsilon N key).1
      (m.window fmt epsilon N key).2 = i ∧
      opens key ((chains (r'.modelForKey key) i).headD []) = true ∧
      ((chains (r'.modelForKey key) i).headD []).length < N ∧
      alloc' = r'.RM.leafAllocator.write (m.ltable.entryNum i)
        ((r'.RM.leafAllocator.leaves (m.ltable.entryNum i)).insertNotFull key val).2 := by
  obtain ⟨_, hsmall⟩ := h.layout hN
  obtain ⟨addrs, hleaves, hok⟩ := bind_eq_ok hok
  rw [LearnedCache.leaves] at hleaves
  split at hleaves
  · rename_i m₀ hm₀
    have hi := (List.getElem?_eq_some_iff.mp hm₀).1
    rw [h.modelForKey_eq hshape, h.copy.2, List.length_map, ← hshape.length] at hi
    have hm := List.getElem?_eq_getElem hi
    obtain ⟨m', hm', hmodel, hcap, hsize, hnum⟩ := h.model_eq hshape hm
    obtain rfl := Option.some.inj (hm₀.symm.trans hm')
    generalize r'.models[r'.modelForKey key] = m at hm hmodel hcap hsize hnum
    have hbound : m₀.ltable.size < 2 ^ 31 := by
      rw [h.copy.2, List.getElem?_map] at hm₀
      obtain ⟨m₁, hm₁, rfl⟩ := Option.map_eq_some_iff.mp hm₀
      exact hsmall m₁ (List.mem_of_getElem? hm₁)
    have hne : addrs ≠ [] := by
      rintro rfl
      cases hok
    have hw₀ := WindowNonneg.of_getLeafAddr hbound hleaves hne
    have hwin : m₀.window fmt epsilon N key = m.window fmt epsilon N key := by
      rw [SubModel.window, SubModel.window, hmodel, hcap]
    have hlen : m₀.ltable.table.length = m.ltable.size := hsize
    rw [hw₀.getLeafAddr_eq, hwin, hlen] at hleaves
    refine ⟨m, target (chains (r'.modelForKey key)) key (m.window fmt epsilon N key).1
      (m.window fmt epsilon N key).2, hm, ?_⟩
    generalize m.window fmt epsilon N key = w at hleaves ⊢
    split at hleaves
    · rename_i hlt
      have hle : w.1 ≤ w.2 := by
        by_contra hgt
        rw [Nat.sub_eq_zero_of_le (not_le.mp hgt)] at hleaves
        exact hne (Except.ok.inj hleaves).symm
      rw [m₀.ltable.leafAddrs_ok (by omega)] at hleaves
      obtain rfl := Except.ok.inj hleaves
      obtain ⟨i, hlo, hhi, hopen, hroom, hlater, halloc⟩ := insertLeaves_of_true
        (hsound.sound _ m hm).toRepresents hsize hnum hN hk (by omega) hok
      have hi' : target (chains (r'.modelForKey key)) key w.1 w.2 = i :=
        (target_eq_iff hle).mpr ⟨hlo, by omega, Or.inr hopen, fun j h1 h2 => hlater j h1 (by omega)⟩
      rw [hi']
      exact ⟨hle, hlt, rfl, hopen, hroom, halloc⟩
    · cases hleaves
  · cases hleaves

structure LeadsTo (fmt : DoubleFormat F) (epsilon : ℕ) (r : RolexIndex F V N)
    (chains : ℕ → ℕ → List (List (Key × V))) (key : Key) (m : SubModel F) (i : ℕ) : Prop where
  model : r.models[r.modelForKey key]? = some m
  le : (m.window fmt epsilon N key).1 ≤ (m.window fmt epsilon N key).2
  lt : (m.window fmt epsilon N key).2 < m.ltable.size
  target : target (chains (r.modelForKey key)) key (m.window fmt epsilon N key).1
    (m.window fmt epsilon N key).2 = i

structure OnlyAt (fmt : DoubleFormat F) (epsilon : ℕ) (r : RolexIndex F V N)
    (chains : ℕ → ℕ → List (List (Key × V))) (key : Key) (m : SubModel F) (i : ℕ)
    (v : V) : Prop extends LeadsTo fmt epsilon r chains key m i where
  value : (chains (r.modelForKey key) i).flatten.lookup key = some v
  other : ∀ (j : ℕ) (m' : SubModel F), r.models[j]? = some m' →
    ∀ b < m'.ltable.size, (j, b) ≠ (r.modelForKey key, i) →
    (chains j b).flatten.lookup key = none

variable {m : SubModel F} {i : ℕ} {val : V}

theorem LeadsTo.lt_size (o : LeadsTo fmt epsilon r chains key m i) : i < m.ltable.size := by
  rw [← o.target]
  exact (target_le o.le).trans_lt o.lt

theorem LeadsTo.edit (o : LeadsTo fmt epsilon r chains key m i)
    (hother : ∀ (j : ℕ) (m' : SubModel F), r.models[j]? = some m' → ∀ b < m'.ltable.size,
      (j, b) ≠ (r.modelForKey key, i) → (chains j b).flatten.lookup key = none)
    (alloc : LeafAllocator Key V N) {bs : List (List (Key × V))}
    (hopen : opens key (bs.headD []) = opens key ((chains (r.modelForKey key) i).headD [])) {v : V}
    (hv : bs.flatten.lookup key = some v) :
    OnlyAt fmt epsilon (r.withLeaves alloc)
      (Function.update chains (r.modelForKey key)
        (Function.update (chains (r.modelForKey key)) i bs)) key m i v := by
  have hJ : (r.withLeaves alloc).modelForKey key = r.modelForKey key := rfl
  refine ⟨⟨o.model, o.le, o.lt, ?_⟩, ?_, fun j m' hm' b hb hne => ?_⟩
  · rw [hJ, Function.update_self, target_congr o.le fun j _ _ => ?_, o.target]
    by_cases hji : j = i
    · rw [hji, Function.update_self, hopen]
    · rw [Function.update_of_ne hji]
  · rw [hJ, Function.update_self, Function.update_self, hv]
  · rw [hJ] at hne
    have hnone := hother j m' hm' b hb hne
    by_cases hj : j = r.modelForKey key
    · subst hj
      have hbi : b ≠ i := fun heq => hne (by rw [heq])
      rwa [Function.update_self, Function.update_of_ne hbi]
    · rwa [Function.update_of_ne hj]

namespace IndexSound

theorem copies_of_onlyAt (h : IndexSound r slots chains)
    (o : OnlyAt fmt epsilon r chains key m i val) : r.copies key = .ok [val] :=
  h.copies_eq_single o.model o.lt_size o.value o.other

theorem search_of_onlyAt (h : IndexSound r slots chains) (hk : key < ⊤)
    (o : OnlyAt fmt epsilon r chains key m i val) : r.search fmt epsilon key = .ok (some val) := by
  rw [RolexIndex.search_eq o.model, (h.sound _ m o.model).search_ok hk o.le o.lt, o.target, o.value]

theorem insert_of_onlyAt (h : IndexSound r slots chains) (hk : key < ⊤)
    (o : OnlyAt fmt epsilon r chains key m i val) (v : V) :
    r.insert fmt epsilon key v = .ok (false, r) := by
  have hsound := h.sound _ m o.model
  have hpick := hsound.toRepresents.pickEntry_ok hk o.le o.lt
  rw [o.target] at hpick
  rw [RolexIndex.insert_eq o.model, LeafTable.insert, if_pos ⟨o.lt, o.le⟩, hpick, ok_bind]
  dsimp only
  rw [hsound.insertSynonym_present o.lt_size hk (by rw [o.value]; simp), Except.map,
    RolexIndex.setTable_self o.model]
  rfl

theorem update_of_onlyAt (h : IndexSound r slots chains) (hk : key < ⊤)
    (o : OnlyAt fmt epsilon r chains key m i val) (v : V) :
    ∃ r₂ chains₂, r.update fmt epsilon key v = .ok (true, r₂) ∧
      (∃ slots₂, IndexSound r₂ slots₂ chains₂) ∧
      OnlyAt fmt epsilon r₂ chains₂ key m i v := by
  have hsound := h.sound _ m o.model
  have ho := hsound.ordered i o.lt_size
  have hpick := hsound.toRepresents.pickEntry_ok hk o.le o.lt
  rw [o.target] at hpick
  obtain ⟨alloc, hup, hstep, _⟩ := hsound.updateSynonym_ok o.lt_size hk v
  have hedited := h.step o.model o.lt_size hstep
  rw [RolexIndex.setTable_self o.model] at hedited
  refine ⟨r.withLeaves alloc, _, ?_, ⟨_, hedited⟩, o.edit o.other alloc (opens_head_update ho) ?_⟩
  · rw [RolexIndex.update_eq o.model, LeafTable.update, if_pos o.lt, hpick, ok_bind]
    dsimp only
    rw [hup, Except.map, RolexIndex.setTable_self o.model, o.value]
    rfl
  · rw [flatten_update ho, lookup_assign, if_pos rfl, o.value]
    rfl

end IndexSound

theorem IndexSound.takenOnce (h : IndexSound r slots chains) (hk : key < ⊤)
    (o : OnlyAt fmt epsilon r chains key m i val) {r₀ : RolexIndex F V N}
    (habsent : r₀.copies key = .ok []) : TakenOnce fmt epsilon r₀ r key val where
  absent := habsent
  once := h.copies_of_onlyAt o
  search := h.search_of_onlyAt hk o
  update := fun v => by
    obtain ⟨r₂, chains₂, hup, ⟨slots₂, hsound⟩, o₂⟩ := h.update_of_onlyAt hk o v
    exact ⟨r₂, hup, hsound.copies_of_onlyAt o₂, hsound.search_of_onlyAt hk o₂⟩
  insert := h.insert_of_onlyAt hk o

/-- In every state that inserts and updates lead to, an insert of a compute node that returns `true`
does what the memory node would do, exactly when the key is absent and no synonym leaf is nearer. -/
theorem client_insert_iff (hN : Even N) (hN0 : 0 < N) (h : Loaded fmt epsilon data r c)
    {ops : List (TableOp Key V)} (hops : ∀ op ∈ ops, op.Stores) {answers : List (Answer V)}
    (hrun : r.run fmt epsilon ops = .ok (answers, r')) (hk : key < ⊤)
    {alloc' : LeafAllocator Key V N}
    (hok : c.insert fmt epsilon r'.RM.leafAllocator key val = .ok (true, alloc')) :
    TakenOnce fmt epsilon r' (r'.withLeaves alloc') key val ↔ Untaken fmt epsilon r' key := by
  obtain ⟨⟨slots, chains, hsound⟩, _⟩ := h.layout hN0
  obtain ⟨hshape, slots, chains, hsound⟩ := hsound.run_of_ok hN hN0 hops hrun
  obtain ⟨m, i, hm, hle, hlt, htarget, hopen, hroom, rfl⟩ :=
    h.insert_of_true hN0 hshape hsound hk hok
  have ht := hsound.sound _ m hm
  have hi : i < m.ltable.size := by
    rw [← htarget]
    exact (target_le hle).trans_lt hlt
  have hpick := ht.toRepresents.pickEntry_ok hk hle hlt
  rw [htarget] at hpick
  have hsyn := ht.toRepresents.synonymOpens_iff hi hk
  constructor
  · intro htaken
    refine ⟨htaken.absent, fun m' p hm' hp hopens => ?_⟩
    obtain rfl := Option.some.inj (hm.symm.trans (model_ok hm'))
    obtain rfl := Except.ok.inj (hpick.symm.trans hp)
    -- the synonym leaf gets the update, and does not have the key
    have hnone := hsound.copies_eq_nil.mp htaken.absent _ m hm i hi
    obtain ⟨alloc₂, hstray⟩ := ht.stray_update hi hk hroom hnone (hsyn.mp hopens) val val
    obtain ⟨r₂, hup, _⟩ := htaken.update val
    have hr := ht.ownWrite hi hk hroom hnone val
    have hpick' := hr.pickEntry_ok hk hle hlt
    rw [target_ownWrite hle htarget hopen] at hpick'
    obtain ⟨m₂, hm₂, _⟩ := bind_eq_ok hup
    obtain rfl := Option.some.inj (hm.symm.trans (model_ok hm₂))
    rw [RolexIndex.update_eq (model_ok hm₂)] at hup
    obtain ⟨⟨res, t, alloc₃⟩, htab, hres⟩ := map_eq_ok hup
    rw [LeafTable.update, if_pos hlt] at htab
    obtain ⟨p, hp, htab⟩ := bind_eq_ok htab
    obtain rfl := Except.ok.inj (hpick'.symm.trans hp)
    obtain rfl : res = false := congrArg Prod.fst (Except.ok.inj (htab.symm.trans hstray))
    cases congrArg Prod.fst hres
  · intro huntaken
    have hnone := hsound.copies_eq_nil.mp huntaken.absent
    have hclosed : ∀ b ∈ (chains (r'.modelForKey key) i).tail, opens key b = false := fun b hb => by
      by_contra hbo
      exact huntaken.closed m _ (model_of_some hm) hpick
        (hsyn.mpr ⟨b, hb, (Bool.not_eq_false _).mp hbo⟩)
    have hstep := ht.clientStep hN hN0 hi hk hroom (hnone _ m hm i hi) hclosed val
    have hsound' := hsound.step hm hi hstep
    rw [RolexIndex.setTable_self hm] at hsound'
    have ho := hstep.sound.ordered i hi
    rw [Function.update_self] at ho
    refine hsound'.takenOnce hk
      (LeadsTo.edit ⟨hm, hle, hlt, htarget⟩ (fun j m' hm' b hb _ => hnone j m' hm' b hb) _ ?_ ?_)
      huntaken.absent
    · rw [List.headD_cons, opens_put_of_opens hopen, hopen]
    · rw [lookup_eq_some ho.ascending, List.flatten_cons]
      exact List.mem_append_left _ (mem_put.mpr (Or.inl rfl))

end Index

def threeData : List (Key × ℕ) := [(0, 0), (2, 20), (4, 40)]

theorem client_insert_iff_five :
    ∃ r c answers r' alloc', emptyStored.train binary64 1 noEntries threeData = .ok r ∧
    LearnedCache.readRemoteIndex binary64 noEntries r.RM.modelAllocator = .ok c ∧
    r.run binary64 1 [.insert 1 10] = .ok (answers, r') ∧
    c.insert binary64 1 r'.RM.leafAllocator 5 50 = .ok (true, alloc') ∧
    (TakenOnce binary64 1 r' (r'.withLeaves alloc') 5 50 ↔ Untaken binary64 1 r' 5) := by
  obtain ⟨r, hr, hp⟩ := exists_ok (p := fun r : RolexIndex (Fin (2 ^ 64)) ℕ 2 =>
      (decide (r.models.length < 2 ^ 21 - 1) &&
        r.models.all fun m => decide ((m.serialize binary64).length < 2 ^ 31)) &&
      (LearnedCache.readRemoteIndex binary64 noEntries r.RM.modelAllocator).toOption.any fun c =>
        (r.run binary64 1 [.insert 1 10]).toOption.any fun res =>
          (c.insert binary64 1 res.2.RM.leafAllocator 5 50).toOption.any fun ins => ins.1)
    (by decide +kernel : (emptyStored.train binary64 1 noEntries threeData).toOption.any _ = true)
  obtain ⟨hfits, hc⟩ := Bool.and_eq_true_iff.mp hp
  obtain ⟨c, hc, hrun⟩ := exists_ok hc
  obtain ⟨⟨answers, r'⟩, hrun, hins⟩ := exists_ok hrun
  obtain ⟨⟨b, alloc'⟩, hins, rfl⟩ := exists_ok hins
  exact ⟨r, c, answers, r', alloc', hr, hc, hrun, hins, client_insert_iff (by decide) (by decide)
    (loaded_of_train hr hc hfits)
    (fun op hop => by rw [List.mem_singleton.mp hop]; exact trivial) hrun (by decide) hins⟩

/-- After the insert of 12, key 11 is in a synonym leaf; the compute node stores it once more. -/
theorem client_insert_second_copy :
    ∃ (r r' : RolexIndex (Fin (2 ^ 64)) ℕ 2) (c : LearnedCache (Fin (2 ^ 64)))
    (answers : List (Answer ℕ)) (alloc' : LeafAllocator Key ℕ 2), Loaded binary64 1 gapData r c ∧
    r.run binary64 1 [.insert 12 120] = .ok (answers, r') ∧ r'.copies 11 = .ok [110] ∧
    c.insert binary64 1 r'.RM.leafAllocator 11 1000 = .ok (true, alloc') ∧
    (r'.withLeaves alloc').copies 11 = .ok [1000, 110] := by
  obtain ⟨r, hr, hp⟩ := exists_ok (p := fun r : RolexIndex (Fin (2 ^ 64)) ℕ 2 =>
      (LearnedCache.readRemoteIndex binary64 noEntries r.RM.modelAllocator).toOption.any fun c =>
        (r.run binary64 1 [.insert 12 120]).toOption.any fun res =>
          (res.2.copies 11).toOption.any (fun vs => decide (vs = [110])) &&
          (c.insert binary64 1 res.2.RM.leafAllocator 11 1000).toOption.any fun ins =>
            ins.1 && ((res.2.withLeaves ins.2).copies 11).toOption.any fun vs =>
              decide (vs = [1000, 110]))
    (by decide +kernel : (emptyStored.train binary64 1 noEntries gapData).toOption.any _ = true)
  obtain ⟨c, hc, hrun⟩ := exists_ok hp
  obtain ⟨⟨answers, r'⟩, hrun, hall⟩ := exists_ok hrun
  obtain ⟨hbefore, hins⟩ := Bool.and_eq_true_iff.mp hall
  obtain ⟨vs, hbefore, hvs⟩ := exists_ok hbefore
  obtain ⟨⟨b, alloc'⟩, hins, hafter⟩ := exists_ok hins
  obtain ⟨hb, hafter⟩ := Bool.and_eq_true_iff.mp hafter
  obtain ⟨ws, hafter, hws⟩ := exists_ok hafter
  obtain rfl := of_decide_eq_true hvs
  obtain rfl := of_decide_eq_true hws
  obtain rfl : b = true := hb
  exact ⟨r, r', c, answers, alloc', gap_loaded hr hc, hrun, hbefore, hins, hafter⟩

end Rolex
