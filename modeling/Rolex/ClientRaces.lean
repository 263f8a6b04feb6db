import Rolex.Foundations.Interleaving
import Rolex.ClientInsert

/-!
Two compute nodes in `LearnedCache::insert` at once. Each RDMA operation is one step and moves one
whole leaf; between its READ and its WRITE of a leaf a node holds no lock, "fixme: use remote lock".
-/

namespace Rolex
open AscendingMap BlockChain Interleaving

structure ClientCall (F V : Type) where
  cache : LearnedCache F
  key : Key
  val : V

/-- Where a call is: before its next READ, its WRITE of the leaf it read, or its FETCH_ADD. -/
inductive ClientPhase (V : Type) (N : ℕ) where
  | start
  | reading (leaves : List LeafAddr)
  | writing (leafNum : ℕ) (leaf : Leaf Key V N)
  | adding
  | returned (res : Bool)
  | faulted (e : Fault)

variable {F V : Type} {N : ℕ} (fmt : DoubleFormat F) (epsilon : ℕ)

def clientStep (call : ClientCall F V) (alloc : LeafAllocator Key V N) :
    ClientPhase V N → Option (ClientPhase V N × LeafAllocator Key V N)
  | .start =>
    match call.cache.leaves fmt epsilon N call.key with
    | .ok leaves => some (.reading leaves.reverse, alloc)
    | .error e => some (.faulted e, alloc)
  | .reading [] => some (.returned false, alloc)
  | .reading (a :: rest) =>
    match LearnedCache.readLeaf alloc a.addr.leafNum with
    | .ok leaf =>
      if leaf.insertHere call.key then
        some (if leaf.isfull then .adding else .writing a.addr.leafNum leaf, alloc)
      else some (.reading rest, alloc)
    | .error e => some (.faulted e, alloc)
  | .writing leafNum leaf =>
    some (.returned true, alloc.write leafNum (leaf.insertNotFull call.key call.val).2)
  | .adding => some (.returned false, { alloc with used := (alloc.used + 1) % 2 ^ 64 })
  | .returned _ => none
  | .faulted _ => none

def twoClients (calls : Bool → ClientCall F V) (x : Bool) (phase : ClientPhase V N)
    (alloc : LeafAllocator Key V N) : Option (ClientPhase V N × LeafAllocator Key V N) :=
  clientStep fmt epsilon (calls x) alloc phase

/-! ### One call alone -/

variable {fmt epsilon}

variable {calls : Bool → ClientCall F V}

theorem reading_alone {x : Bool} {leaves : List LeafAddr} {res : Bool × LeafAllocator Key V N} :
    ∀ {c : Config Bool (ClientPhase V N) (LeafAllocator Key V N)}, c.pc x = .reading leaves →
      LearnedCache.insertLeaves c.shared (calls x).key (calls x).val leaves = .ok res →
      ∃ k c', c.run (twoClients fmt epsilon calls) (List.replicate k x) = some c' ∧
        c'.pc x = .returned res.1 ∧ c'.shared = res.2 := by
  induction leaves with
  | nil =>
    intro c hpc h
    obtain rfl := Except.ok.inj h
    have hnext : twoClients fmt epsilon calls x (c.pc x) c.shared =
        some (.returned false, c.shared) := by
      rw [hpc]
      rfl
    exact ⟨1, _, run_cons_of_next hnext [], Function.update_self .., rfl⟩
  | cons a rest ih =>
    intro c hpc h
    obtain ⟨leaf, hread, h⟩ := bind_eq_ok h
    by_cases hhere : leaf.insertHere (calls x).key = true
    · rw [if_pos hhere] at h
      have hnext : twoClients fmt epsilon calls x (c.pc x) c.shared =
          some (if leaf.isfull then .adding else .writing a.addr.leafNum leaf, c.shared) := by
        rw [hpc, twoClients, clientStep, hread]
        exact if_pos hhere
      cases hfull : leaf.isfull with
      | true =>
        rw [hfull, if_pos rfl] at h hnext
        obtain rfl := Except.ok.inj h
        refine ⟨2, _, (run_cons_of_next hnext [x]).trans
          (run_cons_of_next (p := .returned false) (s := _) ?_ []), Function.update_self .., rfl⟩
        dsimp only
        rw [Function.update_self]
        rfl
      | false =>
        rw [hfull, if_neg Bool.false_ne_true] at h hnext
        obtain rfl := Except.ok.inj h
        refine ⟨2, _, (run_cons_of_next hnext [x]).trans
          (run_cons_of_next (p := .returned true) (s := _) ?_ []), Function.update_self .., rfl⟩
        dsimp only
        rw [Function.update_self]
        rfl
    · rw [if_neg hhere] at h
      have hnext : twoClients fmt epsilon calls x (c.pc x) c.shared =
          some (.reading rest, c.shared) := by
        rw [hpc, twoClients, clientStep, hread]
        exact if_neg hhere
      obtain ⟨k, c', hrun, hres⟩ := ih (c := ⟨Function.update c.pc x (.reading rest), c.shared⟩)
        (Function.update_self ..) h
      exact ⟨k + 1, c', (run_cons_of_next hnext _).trans hrun, hres⟩

/-- Where only one of them makes steps, it is the insert of one node. -/
theorem insert_alone {x : Bool} {c : Config Bool (ClientPhase V N) (LeafAllocator Key V N)}
    (hpc : c.pc x = .start) {res : Bool × LeafAllocator Key V N}
    (h : (calls x).cache.insert fmt epsilon c.shared (calls x).key (calls x).val = .ok res) :
    ∃ k c', c.run (twoClients fmt epsilon calls) (List.replicate k x) = some c' ∧
      c'.pc x = .returned res.1 ∧ c'.shared = res.2 := by
  obtain ⟨leaves, hleaves, h⟩ := bind_eq_ok h
  have hnext : twoClients fmt epsilon calls x (c.pc x) c.shared =
      some (.reading leaves.reverse, c.shared) := by
    rw [hpc, twoClients, clientStep, hleaves]
  obtain ⟨k, c', hrun, hres⟩ : ∃ k c', Config.run (twoClients fmt epsilon calls)
      ⟨Function.update c.pc x (.reading leaves.reverse), c.shared⟩ (List.replicate k x) = some c' ∧
      c'.pc x = .returned res.1 ∧ c'.shared = res.2 := reading_alone (Function.update_self ..) h
  exact ⟨k + 1, c', (run_cons_of_next hnext _).trans hrun, hres⟩

/-! ### Both calls -/

def Remote (alloc : LeafAllocator Key V N) (key : Key) (val : V) : Prop :=
  ∃ num < alloc.allocated, (key, val) ∈ (alloc.leaves num).entries

def Absent (alloc : LeafAllocator Key V N) (key : Key) : Prop :=
  ∀ num < alloc.allocated, ∀ e ∈ (alloc.leaves num).entries, e.1 ≠ key

theorem Leaf.Holds.insertNotFull_of_room {leaf : Leaf Key V N} {es : List (Key × V)} {key : Key}
    (h : leaf.Holds es) (hN : 0 < N) (hroom : leaf.isfull = false) (hk : key < ⊤)
    (habs : ∀ e ∈ leaf.entries, e.1 ≠ key) (val : V) :
    (leaf.insertNotFull key val).2.Holds (put key val es) := by
  have hlt : es.length < N := lt_of_le_of_ne h.length_le fun heq =>
    Bool.false_ne_true (hroom.symm.trans ((h.isfull_iff hN).mpr heq))
  rw [h.entries_eq] at habs
  exact insertNotFull_holds h hk (lookup_eq_none.mpr habs) hlt val

theorem Leaf.Holds.mem_insertNotFull {leaf : Leaf Key V N} {es : List (Key × V)} {key : Key}
    (h : leaf.Holds es) (hN : 0 < N) (hroom : leaf.isfull = false) (hk : key < ⊤)
    (habs : ∀ e ∈ leaf.entries, e.1 ≠ key) (val : V) {e : Key × V} :
    e ∈ (leaf.insertNotFull key val).2.entries ↔ e = (key, val) ∨ e ∈ leaf.entries := by
  rw [(h.insertNotFull_of_room hN hroom hk habs val).entries_eq, mem_put, h.entries_eq]

/-- The node neither has a WRITE ahead nor has succeeded. -/
def ClientPhase.Quiet : ClientPhase V N → Prop
  | .writing _ _ | .returned true => False
  | _ => True

theorem ClientPhase.Quiet.ne_returned {p : ClientPhase V N} (h : p.Quiet) : p ≠ .returned true := by
  rintro rfl
  exact h

theorem ClientPhase.Quiet.ne_writing {p : ClientPhase V N} (h : p.Quiet) (num : ℕ)
    (leaf : Leaf Key V N) : p ≠ .writing num leaf := by
  rintro rfl
  exact h

/-- The leaf `leaf` that a node read at `num` was changed by the other node, which has returned. -/
structure Outdated (calls : Bool → ClientCall F V) (x : Bool) (pc : Bool → ClientPhase V N)
    (alloc : LeafAllocator Key V N) (num : ℕ) (leaf : Leaf Key V N) : Prop where
  returned : pc (!x) = .returned true
  absent : ∀ e ∈ leaf.entries, e.1 ≠ (calls (!x)).key
  elsewhere : ∀ n < alloc.allocated, n ≠ num →
    ∀ e ∈ (alloc.leaves n).entries, e.1 ≠ (calls (!x)).key

structure Racing (calls : Bool → ClientCall F V) (pc : Bool → ClientPhase V N)
    (alloc : LeafAllocator Key V N) : Prop where
  holds : ∀ num < alloc.allocated, ∃ es, (alloc.leaves num).Holds es
  absent : ∀ x, pc x ≠ .returned true → Absent alloc (calls x).key
  remote : ∀ x, pc x = .returned true → Remote alloc (calls x).key (calls x).val
  writing : ∀ x num leaf, pc x = .writing num leaf → num < alloc.allocated ∧ leaf.isfull = false ∧
    (∀ e ∈ leaf.entries, e.1 ≠ (calls x).key) ∧ (∃ es, leaf.Holds es) ∧
    (alloc.leaves num = leaf ∨ Outdated calls x pc alloc num leaf)

namespace Racing

variable {pc : Bool → ClientPhase V N} {alloc : LeafAllocator Key V N} {x : Bool}

theorem move (h : Racing calls pc alloc) (hx : pc x ≠ .returned true) {p : ClientPhase V N}
    {alloc' : LeafAllocator Key V N} (hleaves : alloc'.leaves = alloc.leaves)
    (hallocated : alloc'.allocated = alloc.allocated) (hp : p ≠ .returned true)
    (hw : ∀ num leaf, p = .writing num leaf → num < alloc.allocated ∧ leaf.isfull = false ∧
      alloc.leaves num = leaf) :
    Racing calls (Function.update pc x p) alloc' := by
  refine ⟨?_, fun y hy => ?_, fun y hy => ?_, fun y num leaf hy => ?_⟩
  · rw [hleaves, hallocated]
    exact h.holds
  · rw [Absent, hleaves, hallocated]
    by_cases hyx : y = x
    · exact hyx ▸ h.absent x hx
    · rw [Function.update_of_ne hyx] at hy
      exact h.absent y hy
  · rw [Remote, hleaves, hallocated]
    by_cases hyx : y = x
    · subst hyx
      rw [Function.update_self] at hy
      exact absurd hy hp
    · rw [Function.update_of_ne hyx] at hy
      exact h.remote y hy
  · by_cases hyx : y = x
    · subst hyx
      rw [Function.update_self] at hy
      obtain ⟨hlt, hfull, hleaf⟩ := hw num leaf hy
      subst hleaf
      refine ⟨hallocated ▸ hlt, hfull, h.absent y hx num hlt, h.holds num hlt, Or.inl ?_⟩
      rw [hleaves]
    · rw [Function.update_of_ne hyx] at hy
      obtain ⟨hlt, hfull, habs, hes, hcase⟩ := h.writing y num leaf hy
      refine ⟨hallocated ▸ hlt, hfull, habs, hes, hcase.imp (fun heq => ?_) fun hout => ?_⟩
      · rw [hleaves, heq]
      · obtain rfl : x = !y := Bool.eq_not_of_ne (Ne.symm hyx)
        exact absurd hout.returned hx

theorem write (h : Racing calls pc alloc) (hN : 0 < N) (hk : (calls x).key < ⊤)
    (hkeys : ∀ y, y ≠ x → (calls y).key ≠ (calls x).key) {num : ℕ}
    (hx : pc x = .writing num (alloc.leaves num)) :
    Racing calls (Function.update pc x (.returned true))
      (alloc.write num ((alloc.leaves num).insertNotFull (calls x).key (calls x).val).2) := by
  obtain ⟨hlt, hroom, habs, ⟨es, hes⟩, _⟩ := h.writing x num _ hx
  have hself := alloc.write_leaves_self num
    ((alloc.leaves num).insertNotFull (calls x).key (calls x).val).2
  have hother : ∀ n, n ≠ num →
    (alloc.write num ((alloc.leaves num).insertNotFull (calls x).key (calls x).val).2).leaves n =
      alloc.leaves n := fun n hn => alloc.write_leaves_ne hn _
  have hmem : ∀ e, e ∈ ((alloc.leaves num).insertNotFull (calls x).key (calls x).val).2.entries ↔
      e = ((calls x).key, (calls x).val) ∨ e ∈ (alloc.leaves num).entries :=
    fun e => hes.mem_insertNotFull hN hroom hk habs _
  refine ⟨fun n hn => ?_, fun y hy => ?_, fun y hy => ?_, fun y n leaf hy => ?_⟩
  · by_cases hnn : n = num
    · subst hnn
      rw [hself]
      exact ⟨_, hes.insertNotFull_of_room hN hroom hk habs _⟩
    · rw [hother n hnn]
      exact h.holds n hn
  · have hyx : y ≠ x := by
      rintro rfl
      exact hy (Function.update_self ..)
    rw [Function.update_of_ne hyx] at hy
    intro n hn e he
    by_cases hnn : n = num
    · subst hnn
      rw [hself, hmem] at he
      rcases he with rfl | he
      · exact (hkeys y hyx).symm
      · exact h.absent y hy n hn e he
    · rw [hother n hnn] at he
      exact h.absent y hy n hn e he
  · by_cases hyx : y = x
    · subst hyx
      exact ⟨num, hlt, by rw [hself, hmem]; exact Or.inl rfl⟩
    · rw [Function.update_of_ne hyx] at hy
      obtain ⟨n, hn, hpair⟩ := h.remote y hy
      refine ⟨n, hn, ?_⟩
      by_cases hnn : n = num
      · subst hnn
        rw [hself, hmem]
        exact Or.inr hpair
      · rwa [hother n hnn]
  · have hyx : y ≠ x := by
      rintro rfl
      rw [Function.update_self] at hy
      cases hy
    rw [Function.update_of_ne hyx] at hy
    obtain ⟨hlt', hfull', habs', hes', hcase⟩ := h.writing y n leaf hy
    obtain rfl : x = !y := Bool.eq_not_of_ne (Ne.symm hyx)
    have hne : pc (!y) ≠ .returned true := by
      rw [hx]
      intro hno
      cases hno
    have hleaf : alloc.leaves n = leaf := hcase.resolve_right fun hout => hne hout.returned
    refine ⟨hlt', hfull', habs', hes', ?_⟩
    -- the other node has read this leaf or another one
    by_cases hnn : n = num
    · subst hnn
      refine Or.inr ⟨Function.update_self .., hleaf ▸ habs, fun m hm hmn => ?_⟩
      rw [hother m hmn]
      exact h.absent _ hne m hm
    · exact Or.inl ((hother n hnn).trans hleaf)

/-- A WRITE of a leaf that has changed since: the key of the other node is gone, and both calls have
returned. -/
theorem overwrite (h : Racing calls pc alloc) (hN : 0 < N) (hk : (calls x).key < ⊤)
    (hkeys : ∀ y, y ≠ x → (calls y).key ≠ (calls x).key) {num : ℕ} {leaf : Leaf Key V N}
    (hx : pc x = .writing num leaf) (hleaf : alloc.leaves num ≠ leaf) : pc (!x) = .returned true ∧
      Absent (alloc.write num (leaf.insertNotFull (calls x).key (calls x).val).2)
      (calls (!x)).key := by
  obtain ⟨hlt, hroom, habs, ⟨es, hes⟩, hcase⟩ := h.writing x num leaf hx
  have hout := hcase.resolve_left hleaf
  refine ⟨hout.returned, fun n hn e he => ?_⟩
  by_cases hnn : n = num
  · subst hnn
    rw [alloc.write_leaves_self, hes.mem_insertNotFull hN hroom hk habs] at he
    rcases he with rfl | he
    · exact (hkeys (!x) (Bool.not_ne_self x)).symm
    · exact hout.absent e he
  · rw [alloc.write_leaves_ne hnn] at he
    exact hout.elsewhere n hn hnn e he

end Racing

def UpToDate (x : Bool) (c : Config Bool (ClientPhase V N) (LeafAllocator Key V N)) : Prop :=
  ∀ num leaf, c.pc x = .writing num leaf → c.shared.leaves num = leaf

def AllUpToDate (fmt : DoubleFormat F) (epsilon : ℕ) (calls : Bool → ClientCall F V) :
    Config Bool (ClientPhase V N) (LeafAllocator Key V N) → List Bool → Prop
  | _, [] => True
  | c, x :: xs => UpToDate x c ∧
    ∀ c', c.step (twoClients fmt epsilon calls) x = some c' → AllUpToDate fmt epsilon calls c' xs

section Runs

variable {c c' : Config Bool (ClientPhase V N) (LeafAllocator Key V N)} {x : Bool}

theorem Racing.step (h : Racing calls c.pc c.shared) (hx : ∀ num leaf, c.pc x ≠ .writing num leaf)
    (hs : c.step (twoClients fmt epsilon calls) x = some c') : Racing calls c'.pc c'.shared := by
  obtain ⟨p, s, hnext, rfl⟩ := step_eq_some hs
  rw [twoClients] at hnext
  have hlocal : (c.pc x).Quiet → s.leaves = c.shared.leaves → s.allocated = c.shared.allocated →
    p.Quiet →
      Racing calls (Function.update c.pc x p) s := fun hpc hleaves hall hp =>
    h.move hpc.ne_returned hleaves hall hp.ne_returned fun num leaf hw =>
      absurd hw (hp.ne_writing num leaf)
  cases hpc : c.pc x with
  | start =>
    rw [hpc] at hnext hlocal
    rw [clientStep] at hnext
    split at hnext
    all_goals
      obtain ⟨rfl, rfl⟩ := Prod.mk.inj (Option.some.inj hnext)
      exact hlocal trivial rfl rfl trivial
  | reading leaves =>
    rw [hpc] at hnext hlocal
    cases leaves with
    | nil =>
      obtain ⟨rfl, rfl⟩ := Prod.mk.inj (Option.some.inj hnext)
      exact hlocal trivial rfl rfl trivial
    | cons a rest =>
      rw [clientStep] at hnext
      split at hnext
      · rename_i leaf hread
        split at hnext
        · obtain ⟨rfl, rfl⟩ := Prod.mk.inj (Option.some.inj hnext)
          rw [LearnedCache.readLeaf] at hread
          split at hread
          · rename_i hlt
            obtain rfl := Except.ok.inj hread
            cases hfull : (c.shared.leaves a.addr.leafNum).isfull with
            | true =>
              rw [hfull] at hlocal
              exact hlocal trivial rfl rfl trivial
            | false =>
              -- the leaf that is written next is the one that was read
              have hne : c.pc x ≠ .returned true := fun hret => by
                rw [hpc] at hret
                cases hret
              rw [if_neg Bool.false_ne_true]
              refine h.move hne rfl rfl (fun hret => by cases hret) fun num leaf hw => ?_
              obtain ⟨rfl, rfl⟩ := ClientPhase.writing.inj hw
              exact ⟨hlt, hfull, rfl⟩
          · cases hread
        · obtain ⟨rfl, rfl⟩ := Prod.mk.inj (Option.some.inj hnext)
          exact hlocal trivial rfl rfl trivial
      · obtain ⟨rfl, rfl⟩ := Prod.mk.inj (Option.some.inj hnext)
        exact hlocal trivial rfl rfl trivial
  | writing num leaf => exact absurd hpc (hx num leaf)
  | adding =>
    rw [hpc] at hnext hlocal
    obtain ⟨rfl, rfl⟩ := Prod.mk.inj (Option.some.inj hnext)
    exact hlocal trivial rfl rfl trivial
  | returned res =>
    rw [hpc] at hnext
    cases hnext
  | faulted e =>
    rw [hpc] at hnext
    cases hnext

theorem step_writing {num : ℕ} {leaf : Leaf Key V N} (hx : c.pc x = .writing num leaf)
    (hs : c.step (twoClients fmt epsilon calls) x = some c') :
    c'.pc = Function.update c.pc x (.returned true) ∧
      c'.shared = c.shared.write num (leaf.insertNotFull (calls x).key (calls x).val).2 := by
  obtain ⟨p, s, hnext, rfl⟩ := step_eq_some hs
  rw [twoClients, hx] at hnext
  obtain ⟨rfl, rfl⟩ := Prod.mk.inj (Option.some.inj hnext)
  exact ⟨rfl, rfl⟩

theorem run_of_returned (hret : ∀ y, c.pc y = .returned true) {xs : List Bool}
    (hrun : c.run (twoClients fmt epsilon calls) xs = some c') : c' = c := by
  cases xs with
  | nil => exact (Option.some.inj hrun).symm
  | cons y ys =>
    obtain ⟨c₁, hs, _⟩ := Option.bind_eq_some_iff.mp hrun
    obtain ⟨p, s, hnext, _⟩ := step_eq_some hs
    rw [twoClients, hret y] at hnext
    cases hnext

theorem Racing.run_iff (hN : 0 < N) (hk : ∀ y, (calls y).key < ⊤)
    (hkeys : ∀ y z, y ≠ z → (calls y).key ≠ (calls z).key) {xs : List Bool} :
    ∀ {c : Config Bool (ClientPhase V N) (LeafAllocator Key V N)}, Racing calls c.pc c.shared →
      c.run (twoClients fmt epsilon calls) xs = some c' → (∀ y, c'.pc y = .returned true) →
      ((∀ y, Remote c'.shared (calls y).key (calls y).val) ↔
        AllUpToDate fmt epsilon calls c xs) := by
  induction xs with
  | nil =>
    intro c h hrun hret
    obtain rfl := Option.some.inj hrun
    exact iff_of_true (fun y => h.remote y (hret y)) trivial
  | cons x xs ih =>
    intro c h hrun hret
    obtain ⟨c₁, hs, hrun⟩ := Option.bind_eq_some_iff.mp hrun
    have hnext : AllUpToDate fmt epsilon calls c (x :: xs) ↔ UpToDate x c ∧
        AllUpToDate fmt epsilon calls c₁ xs := by
      rw [AllUpToDate]
      refine and_congr_right fun _ => ⟨fun hall => hall c₁ hs, fun hc₁ c₂ hs₂ => ?_⟩
      obtain rfl := Option.some.inj (hs.symm.trans hs₂)
      exact hc₁
    rw [hnext]
    by_cases hw : ∃ num leaf, c.pc x = .writing num leaf
    · obtain ⟨num, leaf, hx⟩ := hw
      obtain ⟨hpc₁, hshared₁⟩ := step_writing hx hs
      by_cases hleaf : c.shared.leaves num = leaf
      · have hup : UpToDate x c := fun n l hnl => by
          obtain ⟨rfl, rfl⟩ := ClientPhase.writing.inj (hx.symm.trans hnl)
          exact hleaf
        subst hleaf
        have h₁ : Racing calls c₁.pc c₁.shared := by
          rw [hpc₁, hshared₁]
          exact h.write hN (hk x) (fun y hy => hkeys y x hy) hx
        rw [ih h₁ hrun hret, and_iff_right hup]
      · obtain ⟨hother, hgone⟩ := h.overwrite hN (hk x) (fun y hy => hkeys y x hy) hx hleaf
        have hret₁ : ∀ y, c₁.pc y = .returned true := by
          intro y
          rw [hpc₁]
          by_cases hyx : y = x
          · rw [hyx, Function.update_self]
          · rw [Function.update_of_ne hyx, Bool.eq_not_of_ne hyx, hother]
        obtain rfl := run_of_returned hret₁ hrun
        refine iff_of_false (fun hall => ?_) fun hup => hleaf (hup.1 num leaf hx)
        obtain ⟨n, hn, hpair⟩ := hall (!x)
        rw [hshared₁] at hn hpair
        exact hgone n hn _ hpair rfl
    · have hup : UpToDate x c := fun num leaf hx => absurd ⟨num, leaf, hx⟩ hw
      rw [ih (h.step (fun num leaf hx => hw ⟨num, leaf, hx⟩) hs) hrun hret, and_iff_right hup]

/-- After two inserts of distinct absent keys that return `true` both pairs are in the remote
leaves, exactly when no key is the sentinel and no node wrote a leaf that had changed since it read
it. -/
theorem clientRace_iff (hN : 0 < N) (hkeys : ∀ y z, y ≠ z → (calls y).key ≠ (calls z).key)
    {alloc : LeafAllocator Key V N}
    (hleaves : ∀ num < alloc.allocated, ∃ es, (alloc.leaves num).Holds es)
    (habs : ∀ y, Absent alloc (calls y).key) {xs : List Bool}
    (hrun : (⟨fun _ => .start, alloc⟩ : Config Bool (ClientPhase V N) (LeafAllocator Key V N)).run
      (twoClients fmt epsilon calls) xs = some c') (hret : ∀ y, c'.pc y = .returned true) :
    (∀ y, Remote c'.shared (calls y).key (calls y).val) ↔
      (∀ y, (calls y).key < ⊤) ∧ AllUpToDate fmt epsilon calls ⟨fun _ => .start, alloc⟩ xs := by
  by_cases hk : ∀ y, (calls y).key < ⊤
  · have h₀ : Racing calls (fun _ => .start) alloc :=
      ⟨hleaves, fun y _ => habs y, nofun, nofun⟩
    rw [Racing.run_iff hN hk hkeys h₀ hrun hret, and_iff_right hk]
  · refine iff_of_false (fun hall => hk fun y => ?_) fun h => hk h.1
    obtain ⟨n, _, hpair⟩ := hall y
    exact lt_top_iff_ne_top.mpr (of_decide_eq_true (List.mem_filter.mp hpair).2)

end Runs

/-! ### Two inserts behind key 5 -/

def ClientPhase.succeeded : ClientPhase V N → Bool
  | .returned res => res
  | _ => false

theorem ClientPhase.succeeded_iff {p : ClientPhase V N} :
    p.succeeded = true ↔ p = .returned true := by
  cases p <;> simp [succeeded]

def oneLeafStored : RolexIndex (Fin (2 ^ 64)) ℕ 4 :=
  ⟨⟨LeafAllocator.prealloc (fun _ => zeroLeaf 4) 1 (by norm_num), emptyStored.RM.modelAllocator⟩,
    [], []⟩

def sixAndSeven (c : LearnedCache (Fin (2 ^ 64))) (x : Bool) : ClientCall (Fin (2 ^ 64)) ℕ :=
  if x then ⟨c, 7, 70⟩ else ⟨c, 6, 60⟩

theorem sixAndSeven_key (c : LearnedCache (Fin (2 ^ 64))) (x : Bool) :
    (sixAndSeven c x).key = if x then 7 else 6 := by
  cases x <;> rfl

theorem sixAndSeven_run (xs : List Bool) (entries : List (Key × ℕ))
    (h : (oneLeafStored.train binary64 1 noEntries [(5, 50)]).toOption.any (fun r =>
      (LearnedCache.readRemoteIndex binary64 noEntries r.RM.modelAllocator).toOption.any fun c =>
        decide (r.RM.leafAllocator.allocated = 1 ∧
          (r.RM.leafAllocator.leaves 0).keys = [5, ⊤, ⊤, ⊤] ∧
          (r.RM.leafAllocator.leaves 0).vals.take 1 = [50]) &&
        (Config.run (twoClients binary64 1 (sixAndSeven c)) ⟨fun _ => .start,
          r.RM.leafAllocator⟩ xs).any fun c' =>
          ((c'.pc false).succeeded && (c'.pc true).succeeded) &&
          decide (c'.shared.allocated = 1 ∧ (c'.shared.leaves 0).entries = entries)) = true) :
    ∃ r c c', oneLeafStored.train binary64 1 noEntries [(5, 50)] = .ok r ∧
      LearnedCache.readRemoteIndex binary64 noEntries r.RM.modelAllocator = .ok c ∧
      (∀ num < r.RM.leafAllocator.allocated, ∃ es, (r.RM.leafAllocator.leaves num).Holds es) ∧
      (∀ y, Absent r.RM.leafAllocator (sixAndSeven c y).key) ∧
      Config.run (twoClients binary64 1 (sixAndSeven c)) ⟨fun _ => .start, r.RM.leafAllocator⟩ xs =
      some c' ∧
      (∀ y, c'.pc y = .returned true) ∧
      ∀ key val, Remote c'.shared key val ↔ (key, val) ∈ entries := by
  obtain ⟨r, hr, hp⟩ := exists_ok h
  obtain ⟨c, hc, hp⟩ := exists_ok hp
  obtain ⟨hleaf, hrun⟩ := Bool.and_eq_true_iff.mp hp
  obtain ⟨hall, hkeys, hvals⟩ := of_decide_eq_true hleaf
  obtain ⟨c', hrun, hres⟩ := (Option.any_eq_true ..).mp hrun
  obtain ⟨hret, hafter⟩ := Bool.and_eq_true_iff.mp hres
  obtain ⟨hsix, hseven⟩ := Bool.and_eq_true_iff.mp hret
  obtain ⟨hall', hentries⟩ := of_decide_eq_true hafter
  have hholds : (r.RM.leafAllocator.leaves 0).Holds [(5, 50)] :=
    ⟨by decide, by decide, hkeys, hvals⟩
  have hzero : ∀ num < r.RM.leafAllocator.allocated, num = 0 := fun num hnum => by omega
  refine ⟨r, c, c', hr, hc, fun num hnum => ⟨_, hzero num hnum ▸ hholds⟩, fun y num hnum e he => ?_,
    hrun, fun y => ?_, fun key val => ⟨fun h => ?_, fun h => ⟨0, by omega, hentries ▸ h⟩⟩⟩
  · rw [hzero num hnum, hholds.entries_eq, List.mem_singleton] at he
    rw [he, sixAndSeven_key]
    cases y <;> decide
  · cases y with
    | false => exact ClientPhase.succeeded_iff.mp hsix
    | true => exact ClientPhase.succeeded_iff.mp hseven
  · obtain ⟨num, hnum, hpair⟩ := h
    obtain rfl : num = 0 := by omega
    exact hentries ▸ hpair

theorem clientRace_iff_sequential : ∃ c alloc c',
    (⟨fun _ => .start, alloc⟩ : Config Bool (ClientPhase ℕ 4) (LeafAllocator Key ℕ 4)).run
      (twoClients binary64 1 (sixAndSeven c)) [false, false, false, true, true, true] = some c' ∧
    ((∀ y, Remote c'.shared (sixAndSeven c y).key (sixAndSeven c y).val) ↔
      (∀ y, (sixAndSeven c y).key < ⊤) ∧
      AllUpToDate binary64 1 (sixAndSeven c) ⟨fun _ => .start, alloc⟩ [false, false, false, true,
        true, true]) := by
  obtain ⟨r, c, c', _, _, hleaves, habs, hrun, hret, _⟩ :=
    sixAndSeven_run [false, false, false, true, true, true] [(5, 50), (6, 60), (7, 70)]
      (by decide +kernel)
  refine ⟨c, _, c', hrun, clientRace_iff (by decide) (fun y z hyz => ?_) hleaves habs hrun hret⟩
  rw [sixAndSeven_key, sixAndSeven_key]
  revert y z
  decide

/-- Both nodes read the leaf before either writes it; the pair of the first write is gone. -/
theorem client_race_loses_six :
    ∃ r c c', oneLeafStored.train binary64 1 noEntries [(5, 50)] = .ok r ∧
    LearnedCache.readRemoteIndex binary64 noEntries r.RM.modelAllocator = .ok c ∧
    (∀ y, Absent r.RM.leafAllocator (sixAndSeven c y).key) ∧
    Config.run (twoClients binary64 1 (sixAndSeven c)) ⟨fun _ => .start, r.RM.leafAllocator⟩
      [false, false, true, true, false, true] = some c' ∧
    (∀ y, c'.pc y = .returned true) ∧ Remote c'.shared 7 70 ∧ ¬Remote c'.shared 6 60 := by
  obtain ⟨r, c, c', hr, hc, _, habs, hrun, hret, hremote⟩ :=
    sixAndSeven_run [false, false, true, true, false, true] [(5, 50), (7, 70)] (by decide +kernel)
  refine ⟨r, c, c', hr, hc, habs, hrun, hret, (hremote _ _).mpr (by decide), fun h => ?_⟩
  exact absurd ((hremote _ _).mp h) (by decide)

end Rolex
