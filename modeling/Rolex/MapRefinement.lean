import Rolex.SentinelSteps

/-! A trained leaf table as a finite map. As long as every stored key is where its
window leads to, each call is answered as the map answers it. -/

namespace Rolex
open AscendingMap BlockChain

variable {K V : Type} {N : ℕ} [LinearOrder K] [OrderTop K]

/-- The table that the constructor of `SubModel` builds from `data`. -/
structure Trained (data : List (K × V)) (s : TableState K V N) : Prop where
  ascending : Ascending data
  built : ∃ (F : Type) (slope intercept : F) (raw : Fin kSynonymMax → TableEntry)
    (alloc : LeafAllocator K V N) (m : SubModel F), alloc.Fresh ∧
      SubModel.construct raw slope intercept data alloc = .ok (m, s.alloc) ∧ m.ltable = s.table

def mapCall (m : AscendingMap K V) (room : Bool) : TableOp K V → Answer V × AscendingMap K V
  | .search key => (.found (m.find key), m)
  | .update key val => (.done (m.find key).isSome, m.replace key val)
  | .insert key val =>
    (.done (room && (m.find key).isNone), if room then m.insert key val else m)
  | .remove key => (.done (m.find key).isSome, m.erase key)

structure Shows (lo hi : K → ℕ) (s : TableState K V N) (m : AscendingMap K V) : Prop where
  stored : ∃ es, s.stored = .ok es ∧ es.Perm m.entries
  search : ∀ k < ⊤, s.table.search s.alloc k (lo k) (hi k) = .ok (m.find k)

/-- The run `ops` of the table from `s`, each call with the window of its key, gives the
answers of the map, and shows the map before and after every call. -/
def Follows (lo hi : K → ℕ) : TableState K V N → AscendingMap K V → List (TableOp K V) → Prop
  | s, m, [] => Shows lo hi s m
  | s, m, op :: ops => Shows lo hi s m ∧
      ∃ s', s.call op (lo op.key) (hi op.key) = .ok ((mapCall m s.room op).1, s') ∧
        Follows lo hi s' (mapCall m s.room op).2 ops

theorem Trained.filled {data : List (K × V)} {s : TableState K V N} (h : Trained data s)
    (hN : 0 < N) : ∃ base : LeafAllocator K V N, SubModel.Kept base data s.table s.alloc := by
  obtain ⟨F, slope, intercept, raw, alloc, m, hfresh, hbuilt, hm⟩ := h.built
  have hkept := SubModel.construct_kept hN hfresh h.ascending hbuilt
  exact ⟨alloc, hm ▸ hkept⟩

theorem Trained.exists (hN : 0 < N) {data : List (K × V)} (hasc : Ascending data)
    (hbelow : ∀ e ∈ data, e.1 < ⊤) {alloc : LeafAllocator K V N} (hfresh : alloc.Fresh)
    (henough : alloc.used + SubModel.leafCount N data.length ≤ alloc.allocated) :
    ∃ s : TableState K V N, Trained data s ∧ SubModel.Filled alloc data s.table s.alloc := by
  have hok := SubModel.construct_ok hN hfresh hasc hbelow (fun _ => ⟨0, 0, 0, 0⟩) () ()
  obtain ⟨⟨m, alloc'⟩, hr⟩ := hok.1 henough
  obtain ⟨_, _, hf⟩ := hok.2 _ hr
  exact ⟨⟨m.ltable, alloc'⟩, ⟨hasc, Unit, (), (), _, alloc, m, hfresh, hr, rfl⟩, hf⟩

theorem LeafAllocator.prealloc_fresh (raw : ℕ → Leaf K V N) (leafNum : ℕ) (h : leafNum ≤ 2 ^ 48) :
    (prealloc raw leafNum h).Fresh where
  usedLe := Nat.zero_le _
  blank := fun p _ _ => ⟨raw p, rfl⟩

/-! ### The invariant of a run -/

/-- The state `s` stores the map `m`, and every key is where its window leads to. -/
structure Tracks (lo hi : K → ℕ) (s : TableState K V N) (m : AscendingMap K V)
    (slots : ℕ → List ℕ) (chains : ℕ → List (List (K × V))) : Prop where
  sound : Sound s.table s.alloc slots chains
  windows : Windows lo hi s.table.size
  mono : ∀ a b, a ≤ b → b < ⊤ → lo a ≤ lo b
  homed : Homed chains lo hi s.table.size
  mem : ∀ e, (∃ i < s.table.size, e ∈ (chains i).flatten) ↔ e ∈ m.entries

namespace Tracks

variable {lo hi : K → ℕ} {s : TableState K V N} {m : AscendingMap K V} {slots : ℕ → List ℕ}
  {chains : ℕ → List (List (K × V))}

abbrev home (chains : ℕ → List (List (K × V))) (lo hi : K → ℕ) (k : K) : ℕ :=
  target chains k (lo k) (hi k)

theorem home_lt (h : Tracks lo hi s m slots chains) {k : K} (hk : k < ⊤) :
    home chains lo hi k < s.table.size :=
  (target_le (h.windows.le k hk)).trans_lt (h.windows.lt k hk)

theorem mem_home (h : Tracks lo hi s m slots chains) {e : K × V} :
    e ∈ m.entries ↔ e.1 < ⊤ ∧ e ∈ (chains (home chains lo hi e.1)).flatten := by
  rw [← h.mem]
  constructor
  · rintro ⟨i, hi', he⟩
    rw [home, h.homed.target i hi' e he]
    exact ⟨h.homed.below i hi' e he, he⟩
  · rintro ⟨hk, he⟩
    exact ⟨_, h.home_lt hk, he⟩

theorem lookup_home (h : Tracks lo hi s m slots chains) {k : K} (hk : k < ⊤) :
    (chains (home chains lo hi k)).flatten.lookup k = m.find k := by
  apply Option.ext
  intro v
  rw [lookup_eq_some (h.sound.ordered _ (h.home_lt hk)).ascending, AscendingMap.find,
    lookup_eq_some m.ascending, h.mem_home]
  exact ⟨fun he => ⟨hk, he⟩, And.right⟩

theorem nodup (h : Tracks lo hi s m slots chains) :
    ((List.range s.table.size).map fun i => (chains i).flatten).flatten.Nodup := by
  rw [List.nodup_flatten]
  constructor
  · intro es hes
    obtain ⟨i, hi', rfl⟩ := List.mem_map.mp hes
    exact nodup_of_ascending (h.sound.ordered i (List.mem_range.mp hi')).ascending
  · rw [List.pairwise_map]
    refine List.pairwise_lt_range.imp_of_mem fun hi' hj hij e he he' => ?_
    rename_i i j
    have h1 := h.homed.target i (List.mem_range.mp hi') e he
    have h2 := h.homed.target j (List.mem_range.mp hj) e he'
    omega

theorem shows (h : Tracks lo hi s m slots chains) : Shows lo hi s m where
  stored := by
    refine ⟨_, h.sound.stored_ok, ?_⟩
    rw [List.perm_ext_iff_of_nodup h.nodup (nodup_of_ascending m.ascending)]
    intro e
    rw [← h.mem, List.mem_flatten]
    simp
  search := fun k hk => by
    rw [h.sound.search_ok hk (h.windows.le k hk) (h.windows.lt k hk), h.lookup_home hk]

omit [LinearOrder K] [OrderTop K] in
theorem mem_chains_update {i : ℕ} (hi' : i < s.table.size) {bs : List (List (K × V))} {e : K × V} :
    (∃ j < s.table.size, e ∈ (Function.update chains i bs j).flatten) ↔
      e ∈ bs.flatten ∨ ∃ j < s.table.size, j ≠ i ∧ e ∈ (chains j).flatten := by
  constructor
  · rintro ⟨j, hj, he⟩
    rcases Homed.mem_update he with ⟨_, hm⟩ | ⟨hji, hm⟩
    · exact Or.inl hm
    · exact Or.inr ⟨j, hj, hji, hm⟩
  · rintro (he | ⟨j, hj, hji, he⟩)
    · exact ⟨i, hi', by rwa [Function.update_self]⟩
    · exact ⟨j, hj, by rwa [Function.update_of_ne hji]⟩

theorem mem_split (h : Tracks lo hi s m slots chains) {i : ℕ} (hi' : i < s.table.size) {e : K × V} :
    e ∈ m.entries ↔ e ∈ (chains i).flatten ∨ ∃ j < s.table.size, j ≠ i ∧
    e ∈ (chains j).flatten := by
  rw [← h.mem]
  constructor
  · rintro ⟨j, hj, he⟩
    by_cases hji : j = i
    · exact Or.inl (hji ▸ he)
    · exact Or.inr ⟨j, hj, hji, he⟩
  · rintro (he | ⟨j, hj, _, he⟩)
    · exact ⟨i, hi', he⟩
    · exact ⟨j, hj, he⟩

theorem ne_of_mem_other (h : Tracks lo hi s m slots chains) {k : K} {e : K × V}
    (he : ∃ j < s.table.size, j ≠ home chains lo hi k ∧ e ∈ (chains j).flatten) : e.1 ≠ k := by
  obtain ⟨j, hj, hji, he⟩ := he
  rintro rfl
  exact hji (h.homed.target j hj e he).symm

theorem step {s' : TableState K V N} {m' : AscendingMap K V} {slots' : ℕ → List ℕ} {k : K}
    {bs : List (List (K × V))} (h : Tracks lo hi s m slots chains) (hk : k < ⊤)
    (hstep : Step s.table s.alloc slots chains (home chains lo hi k) bs s'.table s'.alloc slots')
    (hhomed : Homed (Function.update chains (home chains lo hi k) bs) lo hi s.table.size)
    (hmem : ∀ e, e ∈ m'.entries ↔ e ∈ bs.flatten ∨
      ∃ j < s.table.size, j ≠ home chains lo hi k ∧ e ∈ (chains j).flatten) :
    Tracks lo hi s' m' slots' (Function.update chains (home chains lo hi k) bs) where
  sound := hstep.sound
  windows := by
    rw [hstep.size]
    exact h.windows
  mono := h.mono
  homed := by
    rw [hstep.size]
    exact hhomed
  mem := fun e => by
    rw [hstep.size, mem_chains_update (h.home_lt hk), hmem]

theorem homed_edit (h : Tracks lo hi s m slots chains) (hN : 2 ≤ N) {op : TableOp K V}
    (hk : op.key < ⊤)
    (hs : ∀ k, op = .remove k → ¬Homed.StrandsIn chains lo k (home chains lo hi k)) :
    Homed (Function.update chains (home chains lo hi op.key)
      (op.edit N s.room (chains (home chains lo hi op.key)))) lo hi s.table.size := by
  have hhome := h.home_lt hk
  cases op with
  | search k =>
    rw [TableOp.edit, Function.update_eq_self]
    exact h.homed
  | update k v => exact h.homed.update h.windows h.sound.ordered hhome k v
  | insert k v =>
    rw [TableOp.edit]
    split
    · exact h.homed.insert h.windows h.mono h.sound.ordered hN hk v
    · rw [Function.update_eq_self]
      exact h.homed
  | remove k => exact h.homed.remove h.windows h.sound.ordered hhome (hs k rfl)

/-- The map after a call holds the pairs of the edited chain and those of the other chains. -/
theorem mem_mapCall (h : Tracks lo hi s m slots chains) {op : TableOp K V} (hk : op.key < ⊤)
    (e : K × V) : e ∈ (mapCall m s.room op).2.entries ↔
      e ∈ (op.edit N s.room (chains (home chains lo hi op.key))).flatten ∨
      ∃ j < s.table.size, j ≠ home chains lo hi op.key ∧ e ∈ (chains j).flatten := by
  have hhome := h.home_lt hk
  have hlook := h.lookup_home hk
  have hord := h.sound.ordered _ hhome
  have hsplit := h.mem_split (e := e) hhome
  have hother := h.ne_of_mem_other (k := op.key) (e := e)
  cases op with
  | search k => exact hsplit
  | update k v =>
    have hkeys : (∃ x ∈ m.entries, x.1 = k) ↔
        ∃ x ∈ (chains (home chains lo hi k)).flatten, x.1 = k := by
      constructor
      · rintro ⟨x, hx, rfl⟩
        exact ⟨x, (h.mem_home.mp hx).2, rfl⟩
      · rintro ⟨x, hx, rfl⟩
        exact ⟨x, h.mem_home.mpr ⟨hk, hx⟩, rfl⟩
    simp only [TableOp.key] at hsplit hord hother ⊢
    rw [mapCall, AscendingMap.replace, TableOp.edit, flatten_update hord, mem_assign, mem_assign,
      hkeys, hsplit]
    constructor
    · rintro (hnew | ⟨hin | hout, hne⟩)
      · exact Or.inl (Or.inl hnew)
      · exact Or.inl (Or.inr ⟨hin, hne⟩)
      · exact Or.inr hout
    · rintro ((hnew | ⟨hin, hne⟩) | hout)
      · exact Or.inl hnew
      · exact Or.inr ⟨Or.inl hin, hne⟩
      · exact Or.inr ⟨Or.inr hout, hother hout⟩
  | insert k v =>
    simp only [TableOp.key] at hsplit hlook hord ⊢
    rw [mapCall, TableOp.edit, hlook]
    cases hf : m.find k with
    | some w =>
      have hins : m.insert k v = m := dif_neg (by rw [hf]; simp)
      simpa [hins] using hsplit
    | none =>
      have hins : (m.insert k v).entries = put k v m.entries := by
        rw [AscendingMap.insert, dif_pos hf]
      cases s.room with
      | false => simpa using hsplit
      | true =>
        simp only [Bool.true_and, Option.isNone_none, if_true, hins]
        rw [mem_put, mem_flatten_insert hord, hsplit, or_assoc]
  | remove k =>
    simp only [TableOp.key] at hsplit hord hother ⊢
    rw [mapCall, AscendingMap.erase, TableOp.edit, flatten_remove hord, mem_without, mem_without,
      hsplit]
    constructor
    · rintro ⟨hin | hout, hne⟩
      · exact Or.inl ⟨hin, hne⟩
      · exact Or.inr hout
    · rintro (⟨hin, hne⟩ | hout)
      · exact ⟨Or.inl hin, hne⟩
      · exact ⟨Or.inr hout, hother hout⟩

theorem call_of_ok (h : Tracks lo hi s m slots chains) (hN : Even N) (hN0 : 0 < N)
    {op : TableOp K V} (hk : op.key < ⊤)
    (hs : ∀ k, op = .remove k → ¬Homed.StrandsIn chains lo k (home chains lo hi k))
    {ans : Answer V} {s' : TableState K V N}
    (hcall : s.call op (lo op.key) (hi op.key) = .ok (ans, s')) :
    ans = (mapCall m s.room op).1 ∧
      ∃ slots' chains', Tracks lo hi s' (mapCall m s.room op).2 slots' chains' := by
  have hN2 : 2 ≤ N := by obtain ⟨n, rfl⟩ := hN; omega
  have hlook := h.lookup_home hk
  obtain ⟨_, rfl, ⟨slots', hstep⟩, _⟩ := h.sound.call_of_ok hN hN0 hk hcall
  have hans : op.answer s.room (chains (home chains lo hi op.key)).flatten =
      (mapCall m s.room op).1 := by
    cases op <;> simp only [TableOp.answer, mapCall, TableOp.key] at hlook ⊢ <;> rw [hlook]
  exact ⟨hans, slots', _, h.step hk hstep (h.homed_edit hN2 hk hs) (h.mem_mapCall hk)⟩

theorem call_ok (h : Tracks lo hi s m slots chains) (hN : Even N) (hN0 : 0 < N) (he : s.Enough)
    (op : TableOp K V) (hk : op.key < ⊤)
    (hs : ∀ k, op = .remove k → ¬Homed.StrandsIn chains lo k (home chains lo hi k)) :
    ∃ s' slots' chains', s.call op (lo op.key) (hi op.key) = .ok ((mapCall m s.room op).1, s') ∧
      s'.Enough ∧ Tracks lo hi s' (mapCall m s.room op).2 slots' chains' := by
  obtain ⟨s', slots', hcall, hstep, _⟩ :=
    h.sound.call_ok hN hN0 he op hk (h.windows.le _ hk) (h.windows.lt _ hk)
  obtain ⟨hans, slots', chains', h'⟩ := h.call_of_ok hN hN0 hk hs hcall
  exact ⟨s', slots', chains', by rw [hcall, hans], hstep.enough he, h'⟩

theorem follows (hN : Even N) (hN0 : 0 < N) {ops : List (TableOp K V)} :
    ∀ {s : TableState K V N} {m : AscendingMap K V} {slots : ℕ → List ℕ}
      {chains : ℕ → List (List (K × V))}, Tracks lo hi s m slots chains → s.Enough →
      (∀ op ∈ ops, op.key < ⊤ ∧ ∀ k, op ≠ .remove k) → Follows lo hi s m ops := by
  induction ops with
  | nil => exact fun h _ _ => h.shows
  | cons op ops ih =>
    intro s m slots chains h he hops
    obtain ⟨hk, hne⟩ := hops op List.mem_cons_self
    obtain ⟨s', slots', chains', hcall, he', h'⟩ :=
      h.call_ok hN hN0 he op hk fun k hrem => absurd hrem (hne k)
    exact ⟨h.shows, s', hcall, ih h' he' fun x hx => hops x (List.mem_cons_of_mem _ hx)⟩

end Tracks

/-! ### The trained table -/

namespace Trained

variable {data : List (K × V)} {s : TableState K V N} {lo hi : K → ℕ}

theorem size (h : Trained data s) (hN : 0 < N) :
    s.table.size = SubModel.leafCount N data.length := by
  obtain ⟨base, hf⟩ := h.filled hN
  exact hf.size

/-- Every window contains the leaf of its trained key, and starts no later than the window of any
greater key. -/
theorem homed (h : Trained data s) (hw : Windows lo hi s.table.size)
    (hleaf : ∀ (j : ℕ) (hj : j < data.length), data[j].1 < ⊤ →
      lo data[j].1 ≤ j / N ∧ j / N ≤ hi data[j].1) :
    Homed (fun i => [SubModel.block N (storable data) i]) lo hi s.table.size where
  below := fun i _ e he => by
    rw [List.flatten_singleton] at he
    exact (mem_storable.mp (List.mem_of_mem_drop (List.mem_of_mem_take he))).2
  target := fun i _ e he => by
    rw [List.flatten_singleton] at he
    have hasc := storable_ascending h.ascending
    have hb : Ascending (SubModel.block N (storable data) i) :=
      (hasc.sublist (List.drop_sublist ..)).sublist (List.take_sublist ..)
    have hopen := opens_of_mem hb he le_rfl
    obtain ⟨j, hj, rfl, hji⟩ := SubModel.exists_of_mem_block he
    have hlt := (mem_storable.mp (List.getElem_mem hj)).2
    -- a storable pair stands where it was trained
    have hpre := storable_isPrefix h.ascending
    have hj' : j < data.length := hj.trans_le hpre.length_le
    have heq : (storable data)[j] = data[j] := hpre.getElem hj
    obtain ⟨h1, h2⟩ := hleaf j hj' (heq ▸ hlt)
    rw [← heq] at h1 h2
    exact (target_eq_iff (hw.le _ hlt)).mpr ⟨hji ▸ h1, hji ▸ h2, Or.inr hopen, fun i' hi' _ =>
      SubModel.not_opens_block hasc hj (hji ▸ hi')⟩

theorem tracks (h : Trained data s) (hN : 0 < N) (hw : Windows lo hi s.table.size)
    (hmono : ∀ a b, a ≤ b → b < ⊤ → lo a ≤ lo b)
    (hleaf : ∀ (j : ℕ) (hj : j < data.length), data[j].1 < ⊤ →
      lo data[j].1 ≤ j / N ∧ j / N ≤ hi data[j].1) :
    Tracks lo hi s ⟨storable data, storable_ascending h.ascending⟩ (fun _ => [])
      (fun i => [SubModel.block N (storable data) i]) where
  sound := by
    obtain ⟨base, hf⟩ := h.filled hN
    exact hf.sound h.ascending
  windows := hw
  mono := hmono
  homed := h.homed hw hleaf
  mem := fun e => by
    have hmem : e ∈ storable data ↔
        e ∈ ((List.range s.table.size).map (SubModel.block N (storable data))).flatten := by
      rw [SubModel.flatten_blocks]
      have hle := (storable_isPrefix h.ascending).length_le
      rw [h.size hN, SubModel.leafCount]
      have := Nat.lt_div_mul_add (a := data.length - 1) hN
      rw [Nat.succ_mul]
      omega
    rw [hmem, List.mem_flatten]
    simp

end Trained

/-- Insert, update and search with a window of their own key, the windows starting in the order of
the keys, are the operations of a finite map. A trained `Leaf::invalidKey()` is in no leaf. -/
theorem leafTable_follows_map (hN : Even N) (hN0 : 0 < N) {data : List (K × V)}
    {s : TableState K V N} (h : Trained data s) (he : s.Enough) {lo hi : K → ℕ}
    (hw : Windows lo hi s.table.size) (hmono : ∀ a b, a ≤ b → b < ⊤ → lo a ≤ lo b)
    (hleaf : ∀ (j : ℕ) (hj : j < data.length), data[j].1 < ⊤ →
      lo data[j].1 ≤ j / N ∧ j / N ≤ hi data[j].1)
    {ops : List (TableOp K V)} (hops : ∀ op ∈ ops, op.key < ⊤ ∧ ∀ k, op ≠ .remove k) :
    Follows lo hi s ⟨storable data, storable_ascending h.ascending⟩ ops :=
  (h.tracks hN0 hw hmono hleaf).follows hN hN0 he hops

def zeroLeaf (N : ℕ) : Leaf Key ℕ N :=
  ⟨List.replicate N 0, List.replicate N 0, List.length_replicate, List.length_replicate⟩

theorem trained_three : ∃ s : TableState Key ℕ 2,
    Trained [(1, 10), (2, 20), (3, 30)] s ∧ s.Enough ∧ s.table.size = 2 := by
  obtain ⟨s, h, hf⟩ := Trained.exists (by norm_num)
    (show Ascending [((1 : Key), 10), (2, 20), (3, 30)] by decide) (by decide)
    (LeafAllocator.prealloc_fresh (fun _ => zeroLeaf 2) 200 (by norm_num)) (by decide)
  refine ⟨s, h, ?_, hf.size⟩
  rw [TableState.Enough, hf.used, hf.allocated, hf.available, hf.size]
  decide

theorem leafTable_follows_map_three : ∃ (s : TableState Key ℕ 2)
    (h : Trained [(1, 10), (2, 20), (3, 30)] s),
    Follows (fun _ => 0) (fun _ => 1) s
      ⟨storable [(1, 10), (2, 20), (3, 30)], storable_ascending h.ascending⟩ [.insert 0 5,
        .update 2 21, .insert 2 22, .search 2] := by
  obtain ⟨s, h, he, hsize⟩ := trained_three
  refine ⟨s, h, leafTable_follows_map (by decide) (by norm_num) h he
    ⟨fun _ _ => Nat.zero_le 1, fun _ _ => by rw [hsize]; norm_num⟩ (fun _ _ _ _ => le_rfl)
    (fun j hj _ => ⟨Nat.zero_le _, ?_⟩) ?_⟩
  · simp only [List.length_cons, List.length_nil] at hj
    omega
  · intro op hop
    fin_cases hop <;> exact ⟨by decide, by simp⟩

end Rolex
