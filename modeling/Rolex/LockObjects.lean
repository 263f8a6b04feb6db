import Rolex.RebuiltIndex
import Rolex.IndexRuns

/-! A rebuilt index has no lock objects. `search`, `update`, `remove` and `range` never use them;
an `insert` that gets past its first tests does. -/

namespace Rolex

/-! ### The functions that do not see the lock objects -/

namespace LeafTable

variable {K V : Type} {N : ℕ} [LinearOrder K] [OrderTop K] (t : LeafTable)
  (alloc : LeafAllocator K V N) (key : K)

def unlocked : LeafTable := { t with csLocks := [] }

def forgetLocks {α β : Type} (res : α × LeafTable × β) : α × LeafTable × β :=
  (res.1, res.2.1.unlocked, res.2.2)

@[simp] theorem unlocked_length : t.unlocked.table.length = t.table.length := rfl

@[simp] theorem unlocked_available : t.unlocked.available = t.available := rfl

@[simp] theorem unlocked_slot (s : ℕ) : t.unlocked.slot s = t.slot s := rfl

omit [LinearOrder K] [OrderTop K] in
@[simp] theorem unlocked_entryLeaf (i : ℕ) :
    t.unlocked.entryLeaf alloc i = t.entryLeaf alloc i := rfl

omit [LinearOrder K] [OrderTop K] in
@[simp] theorem unlocked_slotLeaf (s : ℕ) : t.unlocked.slotLeaf alloc s = t.slotLeaf alloc s := rfl

@[simp] theorem unlocked_unlockLeaf (i : ℕ) :
    t.unlocked.unlockLeaf i = (t.unlockLeaf i).unlocked := rfl

theorem unlocked_walk (fuel : ℕ) : ∀ s, t.unlocked.walk fuel s = t.walk fuel s := by
  induction fuel with
  | zero => exact fun _ => rfl
  | succ fuel ih =>
    intro s
    simp only [walk, unlocked_slot, ih]

@[simp] theorem unlocked_synonymLeaves (i : ℕ) : t.unlocked.synonymLeaves i = t.synonymLeaves i :=
  congrArg (fun w => t.entry i >>= w) (funext fun _ => t.unlocked_walk _ _)

@[simp] theorem unlocked_pickEntry (lo hi : ℕ) :
    t.unlocked.pickEntry alloc key lo hi = t.pickEntry alloc key lo hi := by
  induction hi with
  | zero => rfl
  | succ i ih => simp only [pickEntry, unlocked_entryLeaf, ih]

@[simp] theorem unlocked_pickSynonym (sLeaves : List ℕ) (m : ℕ) :
    t.unlocked.pickSynonym alloc key sLeaves m = t.pickSynonym alloc key sLeaves m := by
  induction m with
  | zero => rfl
  | succ m ih => simp only [pickSynonym, unlocked_slotLeaf, ih]

theorem unlocked_searchFromBack (sLeaves : List ℕ) (m : ℕ) :
    t.unlocked.searchFromBack alloc key sLeaves m = t.searchFromBack alloc key sLeaves m := by
  induction m with
  | zero => rfl
  | succ m ih => simp only [searchFromBack, unlocked_slotLeaf, ih]

theorem unlocked_search (lo hi : ℕ) :
    t.unlocked.search alloc key lo hi = t.search alloc key lo hi := by
  simp only [search, searchEntry, searchSynonym, unlocked_length, unlocked_pickEntry,
    unlocked_synonymLeaves, unlocked_searchFromBack]

@[simp] theorem unlocked_rangeSlots (n : ℕ) (slots : List ℕ) : ∀ vals : List V,
    t.unlocked.rangeSlots alloc key n slots vals = t.rangeSlots alloc key n slots vals := by
  induction slots with
  | nil => exact fun _ => rfl
  | cons s slots ih =>
    intro vals
    simp only [rangeSlots, unlocked_slotLeaf, ih]

theorem unlocked_rangeEntry (lo count : ℕ) :
    t.unlocked.rangeEntry alloc key lo count = t.rangeEntry alloc key lo count := by
  induction count with
  | zero => rfl
  | succ count ih => simp only [rangeEntry, unlocked_entryLeaf, ih]

theorem unlocked_rangeEntries (n left : ℕ) : ∀ (idx : ℕ) (vals : List V),
    t.unlocked.rangeEntries alloc key n left idx vals =
    t.rangeEntries alloc key n left idx vals := by
  induction left with
  | zero => exact fun _ _ => rfl
  | succ left ih =>
    intro idx vals
    simp only [rangeEntries, nextRange, unlocked_entryLeaf, unlocked_synonymLeaves,
      unlocked_rangeSlots, ih]

theorem unlocked_range (n : ℕ) (vals : List V) (lo hi : ℕ) :
    t.unlocked.range alloc key n vals lo hi = t.range alloc key n vals lo hi := by
  simp only [range, rangeSynonym, unlocked_length, unlocked_rangeEntry, unlocked_synonymLeaves,
    unlocked_pickSynonym, unlocked_rangeSlots, unlocked_rangeEntries]

theorem unlocked_lockLeaf (i : ℕ) : t.unlocked.lockLeaf i = (t.lockLeaf i).map unlocked := by
  have hentry : t.unlocked.entry i = t.entry i := rfl
  rw [lockLeaf, lockLeaf, hentry]
  cases t.entry i with
  | error f => rfl
  | ok te =>
    rw [ok_bind, ok_bind]
    split <;> rfl

theorem unlocked_unlinkEmptied (sLeaves : List ℕ) (i : ℕ) (isEmpty : Bool)
    (picked : Option (ℕ × ℕ)) :
    t.unlocked.unlinkEmptied sLeaves i isEmpty picked =
    (t.unlinkEmptied sLeaves i isEmpty picked).map unlocked := by
  cases isEmpty <;> cases picked
  case true.some p =>
    rw [unlinkEmptied, unlinkEmptied, synonymTableRemove, synonymTableRemove, unlocked_slot]
    cases t.slot (sLeaves.getD p.1 0) with
    | error f => rfl
    | ok te =>
      rw [ok_bind, ok_bind]
      split <;> rfl
  all_goals rfl

theorem unlocked_update (val : V) (lo hi : ℕ) :
    t.unlocked.update alloc key val lo hi = (t.update alloc key val lo hi).map forgetLocks := by
  rw [update, update, unlocked_length, unlocked_pickEntry]
  split
  · cases t.pickEntry alloc key lo hi with
    | error f => rfl
    | ok p =>
      rw [ok_bind, ok_bind, updateSynonym, updateSynonym, unlocked_lockLeaf]
      cases t.lockLeaf p.1 with
      | error f => rfl
      | ok t' =>
        simp only [Except.map, ok_bind, unlocked_synonymLeaves, unlocked_pickSynonym]
        cases t'.synonymLeaves p.1 with
        | error f => rfl
        | ok sLeaves =>
          rw [ok_bind, ok_bind]
          cases t'.pickSynonym alloc key sLeaves sLeaves.length <;> rfl
  · rfl

theorem unlocked_remove (lo hi : ℕ) :
    t.unlocked.remove alloc key lo hi = (t.remove alloc key lo hi).map forgetLocks := by
  rw [remove, remove, unlocked_length, unlocked_pickEntry]
  split
  · cases t.pickEntry alloc key lo hi with
    | error f => rfl
    | ok p =>
      rw [ok_bind, ok_bind, removeSynonym, removeSynonym, unlocked_lockLeaf]
      cases t.lockLeaf p.1 with
      | error f => rfl
      | ok t' =>
        simp only [Except.map, ok_bind, unlocked_synonymLeaves, unlocked_pickSynonym,
          unlocked_unlinkEmptied]
        cases t'.synonymLeaves p.1 with
        | error f => rfl
        | ok sLeaves =>
          rw [ok_bind, ok_bind]
          cases t'.pickSynonym alloc key sLeaves sLeaves.length with
          | error f => rfl
          | ok picked =>
            rw [ok_bind, ok_bind]
            cases t'.unlinkEmptied sLeaves p.1
              ((alloc.leaves (pickedLeaf p.2 picked)).remove key).2.isEmpty picked <;>
              rfl
  · rfl

/-- Without lock objects an insert ends at `csLocks[l_idx]`, unless it returned before. -/
theorem unlocked_insertSynonym (val : V) (i leaf : ℕ) :
    t.unlocked.insertSynonym alloc key val i leaf =
    if t.available = kSynonymMax - 1 then .ok (false, t.unlocked, alloc) else .error .outOfBounds :=
  rfl

end LeafTable

/-! ### The tables after a training -/

structure Newly {K V : Type} {N : ℕ} (t : LeafTable) (alloc : LeafAllocator K V N) : Prop where
  locks : t.csLocks = List.replicate t.table.length false
  available : t.available = 1
  pos : t.table ≠ []
  entries : ∀ te ∈ t.table, te.synonymLeaf = 0 ∧ te.leafNum.val < alloc.used
  usedLe : alloc.used ≤ alloc.allocated

namespace Newly

variable {K V : Type} {N : ℕ} {t : LeafTable} {alloc : LeafAllocator K V N}

theorem congr {alloc' : LeafAllocator K V N} (h : Newly t alloc) (hused : alloc.used ≤ alloc'.used)
    (hle : alloc'.used ≤ alloc'.allocated) : Newly t alloc' :=
  ⟨h.locks, h.available, h.pos,
    fun te hte => ⟨(h.entries te hte).1, (h.entries te hte).2.trans_le hused⟩, hle⟩

theorem write (h : Newly t alloc) (p : ℕ) (leaf : Leaf K V N) : Newly t (alloc.write p leaf) :=
  h.congr le_rfl h.usedLe

theorem emplace (halloc : alloc.used < alloc.allocated)
    (hlocks : t.csLocks = List.replicate t.table.length false) (havailable : t.available = 1)
    (hentries : ∀ te ∈ t.table, te.synonymLeaf = 0 ∧ te.leafNum.val < alloc.used) :
    Newly (t.trainEmplaceBack alloc.used) { alloc with used := alloc.used + 1 } where
  locks := by
    simp only [LeafTable.trainEmplaceBack, hlocks, List.length_append, List.length_singleton,
      List.replicate_succ']
  available := havailable
  pos := List.append_ne_nil_of_right_ne_nil _ (List.cons_ne_nil _ _)
  entries := fun te hte => by
    rcases List.mem_append.mp hte with hte | hte
    · exact ⟨(hentries te hte).1, (hentries te hte).2.trans (Nat.lt_succ_self _)⟩
    · rw [List.mem_singleton.mp hte]
      exact ⟨rfl, (Nat.mod_le _ _).trans_lt (Nat.lt_succ_self _)⟩
  usedLe := halloc

theorem fill_ok [LinearOrder K] [OrderTop K] {data : List (K × V)} :
    ∀ {t : LeafTable} {alloc : LeafAllocator K V N} {curLeaf : ℕ}
    {res : LeafTable × LeafAllocator K V N},
      Newly t alloc → SubModel.fill data t alloc curLeaf = .ok res →
      Newly res.1 res.2 ∧ alloc.used ≤ res.2.used := by
  induction data with
  | nil =>
    intro t alloc curLeaf res h hok
    obtain rfl := Except.ok.inj hok
    exact ⟨h, le_rfl⟩
  | cons e data ih =>
    intro t alloc curLeaf res h hok
    rw [SubModel.fill] at hok
    split at hok
    · obtain ⟨_, hfetch, hok⟩ := bind_eq_ok hok
      obtain ⟨hlt, rfl⟩ := LeafAllocator.fetchNewLeaf_eq_ok hfetch
      obtain ⟨hres, hle⟩ := ih ((emplace hlt h.locks h.available h.entries).write _ _) hok
      exact ⟨hres, (Nat.le_succ _).trans hle⟩
    · have hrest := ih (h.write _ _) hok
      exact hrest

theorem of_construct [LinearOrder K] [OrderTop K] {F : Type} {slope intercept : F}
    {raw : Fin kSynonymMax → TableEntry} {data : List (K × V)}
    {res : SubModel F × LeafAllocator K V N}
    (hok : SubModel.construct raw slope intercept data alloc = .ok res) :
    Newly res.1.ltable res.2 ∧ alloc.used ≤ res.2.used := by
  obtain ⟨_, hfetch, hok⟩ := bind_eq_ok hok
  obtain ⟨hlt, rfl⟩ := LeafAllocator.fetchNewLeaf_eq_ok hfetch
  obtain ⟨filled, hfill, hok⟩ := bind_eq_ok hok
  obtain rfl := Except.ok.inj hok
  have hfirst := emplace (t := LeafTable.construct raw) hlt rfl (LeafTable.construct_available raw)
    fun te hte => by cases hte
  obtain ⟨hres, hle⟩ := fill_ok hfirst hfill
  exact ⟨hres, (Nat.le_succ _).trans hle⟩

/-! ### Inserts -/

variable [LinearOrder K] [OrderTop K]

omit [LinearOrder K] [OrderTop K] in
theorem entry_ok (h : Newly t alloc) {i : ℕ} (hi : i < t.table.length) :
    ∃ te, t.entry i = .ok te ∧ te.synonymLeaf = 0 ∧ t.entryLeaf alloc i = .ok te.leafNum := by
  obtain ⟨hsyn, hnum⟩ := h.entries _ (List.getElem_mem hi)
  have hentry := t.entry_eq hi
  refine ⟨t.table[i], hentry, hsyn, ?_⟩
  rw [LeafTable.entryLeaf, hentry, ok_bind, LeafAllocator.getLeaf_ok hnum h.usedLe]

theorem pickEntry_ok (h : Newly t alloc) (key : K) {lo hi : ℕ} (hle : lo ≤ hi)
    (hlt : hi < t.table.length) :
    ∃ p, t.pickEntry alloc key lo hi = .ok p ∧ p.1 < t.table.length := by
  induction hi with
  | zero =>
    obtain ⟨te, _, _, hleaf⟩ := h.entry_ok (by omega : lo < t.table.length)
    exact ⟨(lo, te.leafNum), by rw [LeafTable.pickEntry, hleaf, ok_bind], by omega⟩
  | succ i ih =>
    rw [LeafTable.pickEntry]
    split
    · obtain ⟨te, _, _, hleaf⟩ := h.entry_ok hlt
      rw [hleaf, ok_bind]
      split
      · exact ⟨_, rfl, hlt⟩
      · exact ih (by omega) (by omega)
    · obtain ⟨te, _, _, hleaf⟩ := h.entry_ok (by omega : lo < t.table.length)
      exact ⟨(lo, te.leafNum), by rw [hleaf, ok_bind], by omega⟩

theorem insert_error (h : Newly t alloc) {key : K} {val : V} {lo hi : ℕ} (hle : lo ≤ hi)
    (hlt : hi < t.table.length) {f : Fault} (herr : t.insert alloc key val lo hi = .error f) :
    f = .leavesInsufficient := by
  obtain ⟨⟨i, leaf⟩, hpick, hi⟩ := h.pickEntry_ok key hle hlt
  obtain ⟨te, hentry, hsyn, _⟩ := h.entry_ok hi
  have hav : t.available ≠ kSynonymMax - 1 := by rw [h.available]; decide
  set t' : LeafTable := { t with csLocks := t.csLocks.set i true } with ht'
  have hlock : t.csLock i = .ok t' := by
    rw [LeafTable.csLock, h.locks, List.getElem?_replicate, if_pos hi, ht', h.locks]
  have hleaves : t'.synonymLeaves i = .ok [] := by
    have hentry' : t'.entry i = .ok te := hentry
    rw [LeafTable.synonymLeaves, hentry', ok_bind, hsyn]
    rfl
  have hav' : t'.available ≠ kSynonymMax - 1 := hav
  rw [LeafTable.insert, if_pos ⟨hlt, hle⟩, hpick, ok_bind, LeafTable.insertSynonym, if_neg hav,
    hlock, ok_bind, hleaves, ok_bind] at herr
  simp only [List.length_nil, LeafTable.pickSynonym, ok_bind, if_neg hav', Option.map_none] at herr
  split at herr
  · cases herr
  · split at herr
    · rcases bind_eq_error herr with herr | ⟨_, _, herr⟩
      · rw [LeafTable.splitLeaf, LeafAllocator.fetchNewLeaf] at herr
        split at herr
        · rename_i hused
          have hsmall : t'.available < kSynonymMax - 1 := by
            have hone : t'.available = 1 := h.available
            rw [hone]
            decide
          obtain ⟨t₂, hlink, _⟩ :=
            t'.synonymEmplaceBack_entry h.available.ge hsmall (hused.trans_le alloc.addressable) hi
          rw [ok_bind, LeafTable.emplaceBehind, hlink, ok_bind] at herr
          cases herr
        · exact (Except.error.inj herr).symm
      · cases herr
    · cases herr

theorem unlocked_insert (h : Newly t alloc) (key : K) (val : V) {lo hi : ℕ} (hle : lo ≤ hi)
    (hlt : hi < t.table.length) : t.unlocked.insert alloc key val lo hi = .error .outOfBounds := by
  obtain ⟨p, hpick, _⟩ := h.pickEntry_ok key hle hlt
  have hav : t.available ≠ kSynonymMax - 1 := by rw [h.available]; decide
  rw [LeafTable.insert, if_pos ⟨hlt, hle⟩, LeafTable.unlocked_pickEntry, hpick, ok_bind,
    LeafTable.unlocked_insertSynonym, if_neg hav]

end Newly

/-! ### The operations of an index -/

variable {F V : Type} {N : ℕ} {fmt : DoubleFormat F} {epsilon : ℕ}
  {raw : ℕ → Fin kSynonymMax → TableEntry}

namespace SubModel

variable (m : SubModel F) (alloc : LeafAllocator Key V N) (key : Key)

theorem unlocked_window : m.unlocked.window fmt epsilon N key = m.window fmt epsilon N key := by
  rw [window, window, unlocked]

theorem unlocked_ltable : m.unlocked.ltable = m.ltable.unlocked := rfl

theorem unlocked_search :
    m.unlocked.search fmt epsilon alloc key = m.search fmt epsilon alloc key := by
  rw [search, search, unlocked_window, unlocked_ltable, LeafTable.unlocked_search]

theorem unlocked_range (n : ℕ) (vals : List V) :
    m.unlocked.range fmt epsilon alloc key n vals = m.range fmt epsilon alloc key n vals := by
  rw [range, range, unlocked_window, unlocked_ltable, LeafTable.unlocked_range]

def forgetLocks {α β : Type} (res : α × SubModel F × β) : α × SubModel F × β :=
  (res.1, res.2.1.unlocked, res.2.2)

theorem unlocked_update (val : V) :
    m.unlocked.update fmt epsilon alloc key val =
    (m.update fmt epsilon alloc key val).map forgetLocks := by
  rw [update, update, unlocked_window, unlocked_ltable, LeafTable.unlocked_update]
  cases m.ltable.update alloc key val (m.window fmt epsilon N key).1
    (m.window fmt epsilon N key).2 <;> rfl

theorem unlocked_remove :
    m.unlocked.remove fmt epsilon alloc key = (m.remove fmt epsilon alloc key).map forgetLocks := by
  rw [remove, remove, unlocked_window, unlocked_ltable, LeafTable.unlocked_remove]
  cases m.ltable.remove alloc key (m.window fmt epsilon N key).1 (m.window fmt epsilon N key).2 <;>
    rfl

end SubModel

namespace RolexIndex

def forgetLocks {α : Type} (res : α × RolexIndex F V N) : α × RolexIndex F V N :=
  (res.1, res.2.rebuilt)

variable (r : RolexIndex F V N)

theorem rebuilt_modelForKey (key : Key) : r.rebuilt.modelForKey key = r.modelForKey key := by
  rw [modelForKey, modelForKey, rebuilt, List.length_map]

theorem rebuilt_model (key : Key) : r.rebuilt.model key = (r.model key).map SubModel.unlocked := by
  rw [model, model, rebuilt_modelForKey, rebuilt, List.getElem?_map]
  cases r.models[r.modelForKey key]? <;> rfl

theorem rebuilt_setModel (key : Key) (m : SubModel F) (alloc : LeafAllocator Key V N) :
    r.rebuilt.setModel key m.unlocked alloc = (r.setModel key m alloc).rebuilt := by
  rw [setModel, setModel, rebuilt_modelForKey]
  simp only [rebuilt, List.map_set]

theorem rebuilt_RM : r.rebuilt.RM = r.RM := rfl

theorem rebuilt_search (key : Key) :
    r.rebuilt.search fmt epsilon key = r.search fmt epsilon key := by
  rw [search, search, rebuilt_model, rebuilt_RM]
  cases r.model key with
  | error f => rfl
  | ok m => rw [Except.map, ok_bind, ok_bind, SubModel.unlocked_search]

theorem rebuilt_update (key : Key) (val : V) :
    r.rebuilt.update fmt epsilon key val = (r.update fmt epsilon key val).map forgetLocks := by
  rw [update, update, rebuilt_model, rebuilt_RM]
  cases r.model key with
  | error f => rfl
  | ok m =>
    rw [Except.map, ok_bind, ok_bind, SubModel.unlocked_update]
    cases m.update fmt epsilon r.RM.leafAllocator key val with
    | error f => rfl
    | ok res =>
      rw [Except.map, ok_bind, ok_bind, SubModel.forgetLocks, rebuilt_setModel]
      rfl

theorem rebuilt_remove (key : Key) :
    r.rebuilt.remove fmt epsilon key = (r.remove fmt epsilon key).map forgetLocks := by
  rw [remove, remove, rebuilt_model, rebuilt_RM]
  cases r.model key with
  | error f => rfl
  | ok m =>
    rw [Except.map, ok_bind, ok_bind, SubModel.unlocked_remove]
    cases m.remove fmt epsilon r.RM.leafAllocator key with
    | error f => rfl
    | ok res =>
      rw [Except.map, ok_bind, ok_bind, SubModel.forgetLocks, rebuilt_setModel]
      rfl

theorem rebuilt_rangeModels (alloc : LeafAllocator Key V N) (key : Key) (n : ℕ)
    (models : List (SubModel F)) :
    ∀ vals, rangeModels fmt epsilon alloc key n (models.map SubModel.unlocked) vals =
      rangeModels fmt epsilon alloc key n models vals := by
  induction models with
  | nil => exact fun _ => rfl
  | cons m models ih =>
    intro vals
    simp only [List.map_cons, rangeModels, SubModel.unlocked_range, ih]

theorem rebuilt_range (key : Key) (n : ℕ) (vals : List V) :
    r.rebuilt.range fmt epsilon key n vals = r.range fmt epsilon key n vals := by
  rw [range, range, rebuilt_model, rebuilt_RM, rebuilt_modelForKey]
  cases r.model key with
  | error f => rw [Except.map, error_bind, error_bind]
  | ok m =>
    have hmodels : r.rebuilt.models = r.models.map SubModel.unlocked := rfl
    rw [Except.map, ok_bind, ok_bind, SubModel.unlocked_range]
    simp only [hmodels, ← List.map_drop, rebuilt_rangeModels]

theorem rebuilt_call {op : TableOp Key V} (hop : ∀ key val, op ≠ .insert key val) :
    r.rebuilt.call fmt epsilon op = (r.call fmt epsilon op).map forgetLocks := by
  cases op with
  | search key =>
    rw [call, call, rebuilt_search]
    cases r.search fmt epsilon key <;> rfl
  | update key val =>
    rw [call, call, rebuilt_update]
    cases r.update fmt epsilon key val <;> rfl
  | insert key val => exact absurd rfl (hop key val)
  | remove key =>
    rw [call, call, rebuilt_remove]
    cases r.remove fmt epsilon key <;> rfl

def WindowInTable (fmt : DoubleFormat F) (epsilon : ℕ) (r : RolexIndex F V N) (key : Key) : Prop :=
  ∃ m, r.model key = .ok m ∧ (m.window fmt epsilon N key).1 ≤ (m.window fmt epsilon N key).2 ∧
    (m.window fmt epsilon N key).2 < m.ltable.table.length

def Locks (fmt : DoubleFormat F) (epsilon : ℕ) (r : RolexIndex F V N) (op : TableOp Key V) : Prop :=
  ∃ key val, op = .insert key val ∧ WindowInTable fmt epsilon r key

variable {r}

theorem insert_of_not_window {key : Key} (h : ¬WindowInTable fmt epsilon r key) (val : V) :
    ∃ f, r.insert fmt epsilon key val = .error f ∧
      r.rebuilt.insert fmt epsilon key val = .error f := by
  rw [insert, insert, rebuilt_model, rebuilt_RM]
  cases hm : r.model key with
  | error f => exact ⟨f, rfl, rfl⟩
  | ok m =>
    have hno : ¬((m.window fmt epsilon N key).2 < m.ltable.table.length ∧
        (m.window fmt epsilon N key).2 ≥ (m.window fmt epsilon N key).1) := fun hw => h ⟨m, hm,
        hw.2, hw.1⟩
    rw [Except.map, ok_bind, ok_bind, SubModel.insert, SubModel.insert, SubModel.unlocked_window,
      SubModel.unlocked_ltable]
    refine ⟨.windowOutsideTable, ?_, ?_⟩
    · rw [LeafTable.insert, if_neg hno, error_bind, error_bind]
    · rw [LeafTable.insert, LeafTable.unlocked_length, if_neg hno, error_bind, error_bind]

theorem insert_of_window (hnew : ∀ m ∈ r.models, Newly m.ltable r.RM.leafAllocator) {key : Key}
    (h : WindowInTable fmt epsilon r key) (val : V) :
    (∀ f, r.insert fmt epsilon key val = .error f → f = .leavesInsufficient) ∧
      r.rebuilt.insert fmt epsilon key val = .error .outOfBounds := by
  obtain ⟨m, hm, hle, hlt⟩ := h
  have hm' := hnew m (List.mem_of_getElem? (model_ok hm))
  constructor
  · intro f hf
    rw [insert, hm, ok_bind, SubModel.insert] at hf
    rcases bind_eq_error hf with hf | ⟨_, _, hf⟩
    · rcases bind_eq_error hf with hf | ⟨_, _, hf⟩
      · exact hm'.insert_error hle hlt hf
      · cases hf
    · cases hf
  · rw [insert, rebuilt_model, hm, rebuilt_RM, Except.map, ok_bind, SubModel.insert,
      SubModel.unlocked_window, SubModel.unlocked_ltable, hm'.unlocked_insert key val hle hlt,
      error_bind, error_bind]

theorem rebuilt_call_iff (hnew : ∀ m ∈ r.models, Newly m.ltable r.RM.leafAllocator)
    (op : TableOp Key V) : r.rebuilt.call fmt epsilon op = (r.call fmt epsilon op).map forgetLocks ↔
    ¬Locks fmt epsilon r op := by
  constructor
  · rintro hsame ⟨key, val, rfl, hw⟩
    obtain ⟨htrained, hrebuilt⟩ := insert_of_window hnew hw val
    rw [call, call, hrebuilt, error_bind] at hsame
    cases hins : r.insert fmt epsilon key val with
    | error f =>
      rw [hins, htrained f hins] at hsame
      cases hsame
    | ok res =>
      rw [hins] at hsame
      cases hsame
  · intro hno
    by_cases hop : ∀ key val, op ≠ .insert key val
    · exact r.rebuilt_call hop
    · push Not at hop
      obtain ⟨key, val, rfl⟩ := hop
      obtain ⟨f, hins, hins'⟩ := insert_of_not_window (fun hw => hno ⟨key, val, rfl, hw⟩) val
      rw [call, call, hins, hins']
      rfl

end RolexIndex

/-! ### Trained and rebuilt -/

theorem Appended.newly {r r' : RolexIndex F V N} {segs : List (List (Key × V))}
    (h : Appended fmt epsilon raw r segs r') (hmodels : r.models = []) :
    ∀ m ∈ r'.models, Newly m.ltable r'.RM.leafAllocator := by
  induction h with
  | none => exact fun m hm => by rw [hmodels] at hm; cases hm
  | append h hne hend hok ih =>
    intro m hm
    obtain ⟨m', hbuilt, _, hmodels', _⟩ := appendSegment_ok hok
    obtain ⟨hnew, hused⟩ := Newly.of_construct hbuilt
    rw [hmodels'] at hm
    rcases List.mem_append.mp hm with hm | hm
    · exact (ih m hm).congr hused hnew.usedLe
    · rw [List.mem_singleton.mp hm]
      exact hnew

theorem newly_of_train {r r' : RolexIndex F V N} (hmodels : r.models = []) {data : List (Key × V)}
    (hok : r.train fmt epsilon raw data = .ok r') :
    (∀ m ∈ r'.models, Newly m.ltable r'.RM.leafAllocator) ∧ (r'.models = [] ↔ data = []) := by
  by_cases hne : data = []
  · subst hne
    obtain rfl := RolexIndex.eq_of_train_nil hok
    exact ⟨fun m hm => (by rw [hmodels] at hm; cases hm), iff_of_true hmodels rfl⟩
  obtain ⟨_, segs, r₁, alloc, happ, rfl, _, rfl⟩ := RolexIndex.train_appended hne hok
  refine ⟨happ.newly hmodels, iff_of_false (fun hnil => ?_) hne⟩
  have hlen := (happ.built hmodels).1
  have hnil : r₁.models = [] := hnil
  rw [hnil, List.length_nil, eq_comm, List.length_eq_zero_iff] at hlen
  exact hne (by rw [hlen]; rfl)

/-- An index that is rebuilt from the region of a trained one agrees with it, exactly on the calls
other than an insert whose window is in the table. There are lock objects for the entries only when
there are none. -/
theorem rebuilt_agrees_iff (hst : fmt.Stored) {mem : Bytes.Memory} {t : ℕ} {r r' : RolexIndex F V N}
    (halloc : ModelAllocator.construct mem t = .ok r.RM.modelAllocator) (hmodels : r.models = [])
    (hkeys : r.modelKeys = []) {data : List (Key × V)} (hok : r.train fmt epsilon raw data = .ok r')
    (hnum : r'.models.length < r.RM.modelAllocator.maxUpperNum)
    (hser : ∀ m ∈ r'.models, (m.serialize fmt).length < 2 ^ 31)
    (raw₁ : ℕ → Fin kSynonymMax → TableEntry) :
    ∃ r₂, ({ r' with modelKeys := [], models := [] } : RolexIndex F V N).deserialize fmt raw₁ =
      .ok r₂ ∧
      (∀ op : TableOp Key V,
      r₂.call fmt epsilon op = (r'.call fmt epsilon op).map RolexIndex.forgetLocks ↔
        ¬RolexIndex.Locks fmt epsilon r' op) ∧
      (∀ key n vals, r₂.range fmt epsilon key n vals = r'.range fmt epsilon key n vals) ∧
      ((∀ m ∈ r₂.models, m.ltable.csLocks.length = m.ltable.table.length) ↔ data = []) := by
  obtain ⟨offs, hregion, hcount, hnum', hcap⟩ := region_of_train halloc hmodels hkeys hok hnum hser
  obtain ⟨hback, _⟩ :=
    hregion.read_back hst hcount hnum' (fun m hm => (hcap m hm).trans (by norm_num)) hser raw₁ raw₁
  obtain ⟨hnew, hempty⟩ := newly_of_train hmodels hok
  refine ⟨_, hback, RolexIndex.rebuilt_call_iff hnew, r'.rebuilt_range, ?_⟩
  rw [← hempty]
  constructor
  · intro hlocks
    by_contra hne
    obtain ⟨m, hm⟩ := List.exists_mem_of_ne_nil _ hne
    have hlen := hlocks m.unlocked (List.mem_map_of_mem hm)
    exact (hnew m hm).pos (List.length_eq_zero_iff.mp hlen.symm)
  · intro hnil m hm
    have hnone : r'.rebuilt.models = [] := by rw [RolexIndex.rebuilt, hnil]; rfl
    rw [hnone] at hm
    cases hm

theorem rebuilt_agrees_iff_four : ∃ r' r₂, emptyStored.train binary64 1 noEntries gapData = .ok r' ∧
    ({ r' with modelKeys := [], models := [] } : RolexIndex _ ℕ 2).deserialize binary64 noEntries =
    .ok r₂ ∧
    (r₂.call binary64 1 (.insert 12 5) =
    (r'.call binary64 1 (.insert 12 5)).map RolexIndex.forgetLocks ↔
      ¬RolexIndex.Locks binary64 1 r' (.insert 12 5)) := by
  obtain ⟨r', hr, hp⟩ :=
    exists_ok (p := fun r : RolexIndex (Fin (2 ^ 64)) ℕ 2 => decide (r.models.length = 2) &&
      r.models.all fun m => decide ((m.serialize binary64).length < 2 ^ 31))
    (by decide +kernel : (emptyStored.train binary64 1 noEntries gapData).toOption.any _ = true)
  obtain ⟨htwo, hser⟩ := Bool.and_eq_true_iff.mp hp
  obtain ⟨r₂, hback, hcalls, _⟩ :=
    rebuilt_agrees_iff (fun _ => rfl) emptyStored_construct rfl rfl hr
    (by rw [of_decide_eq_true htwo]; decide)
    (fun m hm => of_decide_eq_true (List.all_eq_true.mp hser m hm)) noEntries
  exact ⟨r', r₂, hr, hback, hcalls (.insert 12 5)⟩

/-- The trained index takes the key, the rebuilt one reads past the end of its lock objects. -/
theorem rebuilt_insert_out_of_bounds :
    ∃ r' r₂, emptyStored.train binary64 1 noEntries gapData = .ok r' ∧
    ({ r' with modelKeys := [], models := [] } : RolexIndex _ ℕ 2).deserialize binary64 noEntries =
    .ok r₂ ∧
    (∃ r, r'.call binary64 1 (.insert 12 5) = .ok (.done true, r)) ∧
    r₂.call binary64 1 (.insert 12 5) = .error .outOfBounds := by
  obtain ⟨r', hr, hp⟩ := exists_ok (p := fun r : RolexIndex (Fin (2 ^ 64)) ℕ 2 =>
      ((r.call binary64 1 (.insert 12 5)).toOption.any fun res => decide
        (res.1 = Answer.done (V := ℕ) true)) &&
      (({ r with modelKeys := [], models := [] } : RolexIndex _ ℕ 2).deserialize binary64
      noEntries).toOption.any
        fun r₂ => match r₂.call binary64 1 (.insert 12 5) with
          | Except.error f => decide (f = Fault.outOfBounds)
          | Except.ok _ => false)
    (by decide +kernel : (emptyStored.train binary64 1 noEntries gapData).toOption.any _ = true)
  obtain ⟨hins, hback⟩ := Bool.and_eq_true_iff.mp hp
  obtain ⟨⟨ans, r⟩, hins, hans⟩ := exists_ok hins
  obtain ⟨r₂, hback, hout⟩ := exists_ok hback
  obtain rfl := of_decide_eq_true hans
  refine ⟨r', r₂, hr, hback, ⟨r, hins⟩, ?_⟩
  split at hout
  · rename_i hcall
    rw [hcall, of_decide_eq_true hout]
  · cases hout

end Rolex
