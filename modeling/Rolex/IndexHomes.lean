import Rolex.IndexContents

/-! Where the pairs of an index are under inserts and updates, when every window contains the last
trained leaf that starts at or below its key: a pair never leaves that leaf and its synonyms. The
pairs of the index are then in ascending order, submodel after submodel and entry after entry. -/

namespace Rolex
open AscendingMap BlockChain

theorem ascending_ext {K V : Type} [LinearOrder K] {xs ys : List (K × V)} (hx : Ascending xs)
    (hy : Ascending ys) (h : ∀ e, e ∈ xs ↔ e ∈ ys) : xs = ys :=
  ((List.perm_ext_iff_of_nodup (nodup_of_ascending hx) (nodup_of_ascending hy)).mpr
    h).eq_of_pairwise (fun _ _ _ _ hab hba => absurd hab hba.asymm) hx hy

/-- What a call that got this answer does to the pairs. -/
def TableOp.effect {K V : Type} [LinearOrder K] (op : TableOp K V) (ans : Answer V)
    (es : List (K × V)) : List (K × V) :=
  match op, ans with
  | .update key val, .done true => assign key val es
  | .insert key val, .done true => put key val es
  | .remove key, .done true => without key es
  | _, _ => es

variable {F V : Type} {N : ℕ} {fmt : DoubleFormat F} {epsilon : ℕ}

/-! ### The entry of a key -/

/-- The last of the first `size` chains that starts at or below the key, 0 if there is none. -/
def entryFor (chains : ℕ → List (List (Key × V))) (size : ℕ) (key : Key) : ℕ :=
  Nat.findGreatest (fun a => opens key ((chains a).headD []) = true) (size - 1)

section Entry

variable {chains chains₀ : ℕ → List (List (Key × V))} {size lo hi : ℕ} {key : Key}

theorem entryFor_mono (chains : ℕ → List (List (Key × V))) (size : ℕ) {k k' : Key} (h : k ≤ k') :
    entryFor chains size k ≤ entryFor chains size k' :=
  Nat.findGreatest_mono (fun _ hopen => opens_mono h hopen) le_rfl

theorem opens_entryFor (h : 0 < entryFor chains size key) :
    opens key ((chains (entryFor chains size key)).headD []) = true :=
  Nat.findGreatest_of_ne_zero rfl h.ne'

theorem target_eq_entryFor (hlo : lo ≤ entryFor chains₀ size key)
    (hhi : entryFor chains₀ size key ≤ hi) (hsize : hi < size)
    (hopen : ∀ a, 0 < a → a < size →
      opens key ((chains a).headD []) = opens key ((chains₀ a).headD [])) :
    target chains key lo hi = entryFor chains₀ size key := by
  refine (target_eq_iff (hlo.trans hhi)).mpr ⟨hlo, hhi, ?_, fun j hj hj' => ?_⟩
  · rcases Nat.eq_zero_or_pos (entryFor chains₀ size key) with hz | hpos
    · exact Or.inl (by omega)
    · rw [hopen _ hpos (by omega)]
      exact Or.inr (opens_entryFor hpos)
  · rw [hopen j (by omega) (by omega)]
    exact Bool.eq_false_iff.mpr (Nat.findGreatest_is_greatest (n := size - 1) hj (by omega))

end Entry

theorem TableOp.mem_effect {K V : Type} [LinearOrder K] {op : TableOp K V} {ans : Answer V}
    {c es : List (K × V)} {P : K × V → Prop} (hes : ∀ e, e ∈ es ↔ e ∈ c ∨ P e)
    (hP : ∀ e, P e → e.1 ≠ op.key) (e : K × V) :
    e ∈ op.effect ans es ↔ e ∈ op.effect ans c ∨ P e := by
  have hne := hP e
  have hkey : (∃ x ∈ es, x.1 = op.key) ↔ ∃ x ∈ c, x.1 = op.key := by
    constructor
    · rintro ⟨x, hx, hxk⟩
      exact ⟨x, ((hes x).mp hx).resolve_right fun h => hP x h hxk, hxk⟩
    · rintro ⟨x, hx, hxk⟩
      exact ⟨x, (hes x).mpr (Or.inl hx), hxk⟩
  rcases ans with val | (_ | _)
  · cases op <;> exact hes e
  · cases op <;> exact hes e
  · cases op with
    | search key => exact hes e
    | update key val =>
      simp only [TableOp.effect, TableOp.key] at hne hkey ⊢
      rw [mem_assign, mem_assign, hkey, hes, or_and_right, and_iff_left_of_imp hne, or_assoc]
    | insert key val =>
      simp only [TableOp.effect]
      rw [mem_put, mem_put, hes, or_assoc]
    | remove key =>
      simp only [TableOp.effect, TableOp.key] at hne ⊢
      rw [mem_without, mem_without, hes, or_and_right, and_iff_left_of_imp hne]

theorem TableOp.flatten_edit {K V : Type} [LinearOrder K] (op : TableOp K V) (N : ℕ) (room : Bool)
    {bs : List (List (K × V))} (ho : Ordered bs) :
    (op.edit N room bs).flatten = op.effect (op.answer room bs.flatten) bs.flatten := by
  cases op with
  | search key => rfl
  | update key val =>
    rw [TableOp.edit, TableOp.answer, flatten_update ho]
    cases hl : bs.flatten.lookup key with
    | some w => rfl
    | none => exact assign_of_forall_ne (lookup_eq_none.mp hl)
  | insert key val =>
    rw [TableOp.edit, TableOp.answer]
    cases hr : room && (bs.flatten.lookup key).isNone with
    | true => exact flatten_insert ho val
    | false => rfl
  | remove key =>
    rw [TableOp.edit, TableOp.answer, flatten_remove ho]
    cases hl : bs.flatten.lookup key with
    | some w => rfl
    | none => exact without_of_forall_ne (lookup_eq_none.mp hl)

/-! ### The pairs of an index -/

def tablePairs (r : RolexIndex F V N) (chains : ℕ → ℕ → List (List (Key × V))) (i : ℕ) :
    List (Key × V) :=
  (List.range (r.tableSize i)).flatMap fun a => (chains i a).flatten

def pairs (r : RolexIndex F V N) (chains : ℕ → ℕ → List (List (Key × V))) : List (Key × V) :=
  (List.range r.models.length).flatMap (tablePairs r chains)

/-- Every pair is in the submodel and the entry of its key, and the leaves behind entry 0 start
where they started after training. -/
structure Homes (r : RolexIndex F V N) (chains₀ chains : ℕ → ℕ → List (List (Key × V))) : Prop where
  opens : ∀ i a, 0 < a → a < r.tableSize i → ∀ key,
    opens key ((chains i a).headD []) = opens key ((chains₀ i a).headD [])
  home : ∀ i < r.models.length, ∀ a < r.tableSize i, ∀ e ∈ (chains i a).flatten,
    e.1 < ⊤ ∧ r.modelForKey e.1 = i ∧ entryFor (chains₀ i) (r.tableSize i) e.1 = a

/-- The windows contain the entries of the trained chains. -/
def Guided (fmt : DoubleFormat F) (epsilon : ℕ) (r : RolexIndex F V N)
    (chains₀ : ℕ → ℕ → List (List (Key × V))) : Prop :=
  ∀ (i : ℕ) (m : SubModel F), r.models[i]? = some m → ∀ key < ⊤,
    (m.window fmt epsilon N key).1 ≤ entryFor (chains₀ i) m.ltable.size key ∧
      entryFor (chains₀ i) m.ltable.size key ≤ (m.window fmt epsilon N key).2 ∧
      (m.window fmt epsilon N key).2 < m.ltable.size

section Pairs

variable {r r' : RolexIndex F V N} {slots : ℕ → ℕ → List ℕ}
  {chains₀ chains : ℕ → ℕ → List (List (Key × V))}

theorem mem_pairs {e : Key × V} : e ∈ pairs r chains ↔
    ∃ i < r.models.length, ∃ a < r.tableSize i, e ∈ (chains i a).flatten := by
  simp [pairs, tablePairs]

theorem modelForKey_mono {k k' : Key} (h : k ≤ k') : r.modelForKey k ≤ r.modelForKey k' := by
  have hidx : firstNotBelow r.modelKeys k ≤ firstNotBelow r.modelKeys k' := by
    by_contra hlt
    have hno := List.not_of_lt_findIdx (not_le.mp hlt)
    have hlen := (not_le.mp hlt).trans_le List.findIdx_le_length
    have hyes := List.findIdx_getElem (w := hlen)
    simp only [decide_eq_true_eq, decide_eq_false_iff_not] at hno hyes
    exact hno (h.trans hyes)
  rw [RolexIndex.modelForKey, RolexIndex.modelForKey, modelForKey, modelForKey]
  split_ifs <;> omega

theorem Homes.ascending_table (h : Homes r chains₀ chains) (hs : IndexSound r slots chains) {i : ℕ}
    (hi : i < r.models.length) : Ascending (tablePairs r chains i) := by
  have hm := List.getElem?_eq_getElem hi
  refine List.pairwise_flatMap.mpr ⟨fun a ha => ?_,
    List.pairwise_lt_range.imp_of_mem fun {a b} ha hb hab x hx y hy => ?_⟩
  · rw [List.mem_range, r.tableSize_eq hm] at ha
    exact ((hs.sound i _ hm).ordered a ha).ascending
  · by_contra hle
    have hmono := entryFor_mono (chains₀ i) (r.tableSize i) (not_lt.mp hle)
    rw [(h.home i hi a (List.mem_range.mp ha) x hx).2.2,
      (h.home i hi b (List.mem_range.mp hb) y hy).2.2] at hmono
    omega

theorem Homes.ascending (h : Homes r chains₀ chains) (hs : IndexSound r slots chains) :
    Ascending (pairs r chains) := by
  refine List.pairwise_flatMap.mpr ⟨fun i hi => h.ascending_table hs (List.mem_range.mp hi),
    List.pairwise_lt_range.imp_of_mem fun {i j} hi hj hij x hx y hy => ?_⟩
  obtain ⟨a, ha, hx⟩ := List.mem_flatMap.mp hx
  obtain ⟨b, hb, hy⟩ := List.mem_flatMap.mp hy
  by_contra hle
  have hmono := modelForKey_mono (r := r) (not_lt.mp hle)
  rw [(h.home i (List.mem_range.mp hi) a (List.mem_range.mp ha) x hx).2.1,
    (h.home j (List.mem_range.mp hj) b (List.mem_range.mp hb) y hy).2.1] at hmono
  omega

theorem SameShape.tableSize (h : SameShape r r') (i : ℕ) : r'.tableSize i = r.tableSize i := by
  by_cases hi : i < r.models.length
  · have hm := List.getElem?_eq_getElem hi
    have hm' := List.getElem?_eq_getElem (h.length ▸ hi)
    rw [r.tableSize_eq hm, r'.tableSize_eq hm']
    exact (h.model i _ _ hm hm').2.2.1
  · rw [RolexIndex.tableSize, RolexIndex.tableSize, List.getElem?_eq_none (not_lt.mp hi),
      List.getElem?_eq_none (h.length ▸ not_lt.mp hi)]

theorem Guided.congr (h : Guided fmt epsilon r chains₀) (hshape : SameShape r r') :
    Guided fmt epsilon r' chains₀ := by
  intro i m hm key hk
  have hi : i < r.models.length := hshape.length ▸ (List.getElem?_eq_some_iff.mp hm).1
  obtain ⟨hmodel, hcap, hsize, -⟩ := hshape.model i _ m (List.getElem?_eq_getElem hi) hm
  have hold := h i _ (List.getElem?_eq_getElem hi) key hk
  rw [SubModel.window, hmodel, hcap, hsize]
  exact hold

theorem Homes.target_eq (h : Homes r chains₀ chains) (hg : Guided fmt epsilon r chains₀) {i : ℕ}
    {m : SubModel F} (hm : r.models[i]? = some m) {key : Key} (hk : key < ⊤) :
    target (chains i) key (m.window fmt epsilon N key).1 (m.window fmt epsilon N key).2 =
      entryFor (chains₀ i) m.ltable.size key := by
  obtain ⟨hlo, hhi, hsize⟩ := hg i m hm key hk
  refine target_eq_entryFor hlo hhi hsize fun a ha ha' => h.opens i a ha ?_ key
  rwa [r.tableSize_eq hm]

def replaceChain (chains : ℕ → ℕ → List (List (Key × V))) (i a : ℕ) (bs : List (List (Key × V))) :
    ℕ → ℕ → List (List (Key × V)) :=
  Function.update chains i (Function.update (chains i) a bs)

theorem replaceChain_self (i a : ℕ) (bs : List (List (Key × V))) :
    replaceChain chains i a bs i a = bs := by
  rw [replaceChain, Function.update_self, Function.update_self]

theorem replaceChain_of_ne {i a j b : ℕ} (h : ¬(j = i ∧ b = a)) (bs : List (List (Key × V))) :
    replaceChain chains i a bs j b = chains j b := by
  rw [replaceChain]
  by_cases hj : j = i
  · subst hj
    rw [Function.update_self, Function.update_of_ne fun hb => h ⟨rfl, hb⟩]
  · rw [Function.update_of_ne hj]

theorem Homes.edit (h : Homes r chains₀ chains) (hshape : SameShape r r') {i a : ℕ}
    {bs : List (List (Key × V))}
    (hopen : 0 < a → ∀ key, BlockChain.opens key (bs.headD []) =
      BlockChain.opens key ((chains i a).headD []))
      (hbs : ∀ e ∈ bs.flatten, e.1 < ⊤ ∧ r.modelForKey e.1 = i ∧
        entryFor (chains₀ i) (r.tableSize i) e.1 = a) :
    Homes r' chains₀ (replaceChain chains i a bs) := by
  refine ⟨fun j b hb hb' key => ?_, fun j hj b hb e he => ?_⟩
  · rw [hshape.tableSize] at hb'
    by_cases hjb : j = i ∧ b = a
    · obtain ⟨rfl, rfl⟩ := hjb
      rw [replaceChain_self, hopen hb key, h.opens j b hb hb' key]
    · rw [replaceChain_of_ne hjb]
      exact h.opens j b hb hb' key
  · rw [hshape.length] at hj
    rw [hshape.tableSize] at hb ⊢
    rw [hshape.modelForKey]
    by_cases hjb : j = i ∧ b = a
    · obtain ⟨rfl, rfl⟩ := hjb
      rw [replaceChain_self] at he
      exact hbs e he
    · rw [replaceChain_of_ne hjb] at he
      exact h.home j hj b hb e he

theorem mem_pairs_replaceChain (hshape : SameShape r r') {i a : ℕ} {bs : List (List (Key × V))}
    (hi : i < r.models.length) (ha : a < r.tableSize i) {e : Key × V} :
    e ∈ pairs r' (replaceChain chains i a bs) ↔ e ∈ bs.flatten ∨
      ∃ j < r.models.length, ∃ b < r.tableSize j, ¬(j = i ∧ b = a) ∧ e ∈ (chains j b).flatten := by
  rw [mem_pairs]
  constructor
  · rintro ⟨j, hj, b, hb, he⟩
    rw [hshape.length] at hj
    rw [hshape.tableSize] at hb
    by_cases hjb : j = i ∧ b = a
    · obtain ⟨rfl, rfl⟩ := hjb
      rw [replaceChain_self] at he
      exact Or.inl he
    · rw [replaceChain_of_ne hjb] at he
      exact Or.inr ⟨j, hj, b, hb, hjb, he⟩
  · rintro (he | ⟨j, hj, b, hb, hjb, he⟩)
    · exact ⟨i, hshape.length ▸ hi, a, (hshape.tableSize i).symm ▸ ha, by rwa [replaceChain_self]⟩
    · exact ⟨j, hshape.length ▸ hj, b, (hshape.tableSize j).symm ▸ hb,
        by rwa [replaceChain_of_ne hjb]⟩

theorem opens_head_edit (hN : 2 ≤ N) {op : TableOp Key V} (hop : op.Stores) {room : Bool}
    {bs : List (List (Key × V))} (ho : Ordered bs) (hhead : opens op.key (bs.headD []) = true)
    (key : Key) : opens key ((op.edit N room bs).headD []) = opens key (bs.headD []) := by
  cases op with
  | search _ => exact hop.elim
  | remove _ => exact hop.elim
  | update k v => exact opens_head_update ho
  | insert k v =>
    rw [TableOp.edit]
    split
    · rw [Bool.eq_iff_iff]
      refine ⟨fun hnew => ?_, opens_head_insert_of_opens hN ho⟩
      rcases opens_head_insert hN ho hnew with hold | ⟨hclosed, _⟩
      · exact hold
      · exact absurd (hclosed.symm.trans hhead) Bool.false_ne_true
    · rfl

theorem TableOp.key_of_mem_effect {op : TableOp Key V} {ans : Answer V} {es : List (Key × V)}
    {e : Key × V} (he : e ∈ op.effect ans es) : e.1 = op.key ∨ ∃ x ∈ es, x.1 = e.1 := by
  rcases ans with val | (_ | _)
  · cases op <;> exact Or.inr ⟨e, he, rfl⟩
  · cases op <;> exact Or.inr ⟨e, he, rfl⟩
  · cases op with
    | search key => exact Or.inr ⟨e, he, rfl⟩
    | update key val =>
      rcases mem_assign.mp he with ⟨rfl, _⟩ | ⟨he, _⟩
      · exact Or.inl rfl
      · exact Or.inr ⟨e, he, rfl⟩
    | insert key val =>
      rcases mem_put.mp he with rfl | he
      · exact Or.inl rfl
      · exact Or.inr ⟨e, he, rfl⟩
    | remove key => exact Or.inr ⟨e, (mem_without.mp he).1, rfl⟩

theorem TableOp.ascending_effect {op : TableOp Key V} {ans : Answer V} {es : List (Key × V)}
    (h : Ascending es) (hins : ∀ key val, op = .insert key val → ans = .done true →
      ∀ e ∈ es, e.1 ≠ key) :
    Ascending (op.effect ans es) := by
  rcases ans with val | (_ | _)
  · cases op <;> exact h
  · cases op <;> exact h
  · cases op with
    | search key => exact h
    | update key val => exact ascending_assign h
    | insert key val => exact ascending_put h (hins key val rfl rfl)
    | remove key => exact ascending_without h

theorem TableOp.absent_of_answer {room : Bool} {es : List (Key × V)} {key : Key} {val : V}
    (h : (TableOp.insert key val).answer room es = .done true) : ∀ e ∈ es, e.1 ≠ key := by
  rw [TableOp.answer, Answer.done.injEq, Bool.and_eq_true, Option.isNone_iff_eq_none] at h
  exact lookup_eq_none.mp h.2

theorem Homes.call (h : Homes r chains₀ chains) (hs : IndexSound r slots chains)
    (hg : Guided fmt epsilon r chains₀) (hN : Even N) (hN0 : 0 < N) {op : TableOp Key V}
    (hop : op.Stores) (hk : op.key < ⊤) {ans : Answer V}
    (hok : r.call fmt epsilon op = .ok (ans, r')) :
    SameShape r r' ∧ ∃ slots' chains', IndexSound r' slots' chains' ∧ Homes r' chains₀ chains' ∧
      pairs r' chains' = op.effect ans (pairs r chains) := by
  obtain ⟨m, a, he⟩ := hs.call_of_ok hN hN0 hop hk hok
  obtain ⟨t, alloc, slots', rfl, hnum, hstep⟩ := he.step
  have hshape := SameShape.setTable he.model hstep.size hnum alloc
  have hs' : IndexSound _ _ (replaceChain chains (r.modelForKey op.key) a _) :=
    hs.step he.model he.lt hstep
  have hi := (List.getElem?_eq_some_iff.mp he.model).1
  have hsize := r.tableSize_eq he.model
  have halt : a < r.tableSize (r.modelForKey op.key) := hsize.symm ▸ he.lt
  have hN2 : 2 ≤ N := by
    obtain ⟨n, rfl⟩ := hN
    omega
  have ho := (hs.sound _ m he.model).ordered a he.lt
  have ha : entryFor (chains₀ (r.modelForKey op.key)) m.ltable.size op.key = a :=
    (h.target_eq hg he.model hk).symm.trans he.target.symm
  have hflat := op.flatten_edit N (decide (m.ltable.available < kSynonymMax - 1)) ho
  rw [← he.answer] at hflat
  -- the key is in no other chain
  have hothers : ∀ x, (∃ j < r.models.length, ∃ b < r.tableSize j,
    ¬(j = r.modelForKey op.key ∧ b = a) ∧
      x ∈ (chains j b).flatten) → x.1 ≠ op.key := by
    rintro x ⟨j, hj, b, hb, hjb, hx⟩ hxk
    obtain ⟨-, hroute, hentry⟩ := h.home j hj b hb x hx
    rw [hxk] at hroute hentry
    subst hroute
    rw [hsize, ha] at hentry
    exact hjb ⟨rfl, hentry.symm⟩
  have hpairs : ∀ x, x ∈ pairs r chains ↔ x ∈ (chains (r.modelForKey op.key) a).flatten ∨
      ∃ j < r.models.length, ∃ b < r.tableSize j, ¬(j = r.modelForKey op.key ∧ b = a) ∧
        x ∈ (chains j b).flatten := fun x => by
    have hrep : x ∈ pairs r
        (replaceChain chains (r.modelForKey op.key) a (chains (r.modelForKey op.key) a)) ↔ _ :=
      mem_pairs_replaceChain (SameShape.refl r) hi halt
    rwa [replaceChain, Function.update_eq_self, Function.update_eq_self] at hrep
  have hhome : Homes _ chains₀ (replaceChain chains (r.modelForKey op.key) a
      (op.edit N (decide (m.ltable.available < kSynonymMax - 1))
      (chains (r.modelForKey op.key) a))) := h.edit hshape
    (fun hpos => opens_head_edit hN2 hop ho (by
      rw [h.opens _ a hpos halt, ← ha]
      exact opens_entryFor (ha.symm ▸ hpos)))
    (fun e hmem => by
      rw [hflat] at hmem
      rcases TableOp.key_of_mem_effect hmem with hkey | ⟨x, hx, hkey⟩
      · rw [hkey, hsize]
        exact ⟨hk, rfl, ha⟩
      · rw [← hkey]
        exact h.home _ hi a halt x hx)
  refine ⟨hshape, _, _, hs', hhome, ascending_ext (hhome.ascending hs') ?_ fun e => ?_⟩
  · refine TableOp.ascending_effect (h.ascending hs) fun key val hins htrue e hmem => ?_
    subst hins
    rcases (hpairs e).mp hmem with hmem | hmem
    · exact TableOp.absent_of_answer (he.answer.symm.trans htrue) e hmem
    · exact hothers e hmem
  · rw [mem_pairs_replaceChain hshape hi halt, hflat]
    exact (TableOp.mem_effect hpairs hothers e).symm

def TableOp.effects {K V : Type} [LinearOrder K] :
    List (TableOp K V) → List (Answer V) → List (K × V) → List (K × V)
  | op :: ops, ans :: answers, es => effects ops answers (op.effect ans es)
  | _, _, es => es

theorem Homes.run {ops : List (TableOp Key V)} (hN : Even N) (hN0 : 0 < N)
    (hops : ∀ op ∈ ops, op.Stores ∧ op.key < ⊤) :
    ∀ {r r' : RolexIndex F V N} {slots : ℕ → ℕ → List ℕ} {chains : ℕ → ℕ → List (List (Key × V))}
      {answers : List (Answer V)}, Homes r chains₀ chains → IndexSound r slots chains →
      Guided fmt epsilon r chains₀ → r.run fmt epsilon ops = .ok (answers, r') →
      SameShape r r' ∧ ∃ slots' chains', IndexSound r' slots' chains' ∧ Homes r' chains₀ chains' ∧
        pairs r' chains' = TableOp.effects ops answers (pairs r chains) := by
  induction ops with
  | nil =>
    intro r r' slots chains answers h hs hg hok
    obtain ⟨rfl, rfl⟩ := Prod.mk.inj (Except.ok.inj hok)
    exact ⟨.refl _, slots, chains, hs, h, rfl⟩
  | cons op ops ih =>
    intro r r' slots chains answers h hs hg hok
    obtain ⟨⟨ans, r₁⟩, hcall, hok⟩ := bind_eq_ok hok
    obtain ⟨⟨rest, r₂⟩, hrun, hok⟩ := bind_eq_ok hok
    obtain ⟨rfl, rfl⟩ := Prod.mk.inj (Except.ok.inj hok)
    obtain ⟨hop, hk⟩ := hops op List.mem_cons_self
    obtain ⟨hshape₁, slots₁, chains₁, hs₁, h₁, hpairs₁⟩ := h.call hs hg hN hN0 hop hk hcall
    obtain ⟨hshape, slots', chains', hs', h', hpairs⟩ :=
      ih (fun x hx => hops x (List.mem_cons_of_mem _ hx)) h₁ hs₁
      (hg.congr hshape₁) hrun
    exact ⟨hshape₁.trans hshape, slots', chains', hs', h', by rw [hpairs, hpairs₁, TableOp.effects]⟩

end Pairs

end Rolex
