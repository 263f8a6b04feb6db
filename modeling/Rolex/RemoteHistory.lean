import Rolex.RemoteCalls
import Rolex.RpcSessions
import Rolex.TrainedHomes

/-!
The histories of the remote calls: every call takes effect at one moment between its start and its
return, in the order in which the server handles the requests, and there it is the call on one map.
-/

namespace Rolex
open AscendingMap Bytes Histories Mailbox

/-! ### Every run -/

def servedCalls (es : List RemoteEvent) : List (RemoteOp × Option Val) :=
  es.filterMap fun e => match e with
    | .serve _ op ans => some (op, ans)
    | _ => none

section Runs

variable {ι F : Type} {N : ℕ} [DecidableEq ι] {fmt : DoubleFormat F} {epsilon : ℕ}
  {setup : ι → ClientSetup}

abbrev RemoteOp.Calls (fmt : DoubleFormat F) (epsilon : ℕ) (index : RolexIndex F Val N) :
    List (RemoteOp × Option Val) → RolexIndex F Val N → Prop :=
  Run (fun index call index' => call.1.apply fmt epsilon index = .ok (call.2, index')) index

omit [DecidableEq ι] in
theorem RemoteSystem.start_sound {server : RPCCore} (h : ∀ i, server.Connected (setup i))
    (index : RolexIndex F Val N) : (RemoteSystem.start server index).Sound setup where
  station := fun _ => List.length_replicate
  sessions := h
  senders := fun _ hp => (List.not_mem_nil hp).elim
  phases := fun i cor => ⟨.running, .running fun r hr => by
    rw [RemoteSystem.start, RemoteClient.start, RPCCore.construct, ReplyStation.construct,
      List.getElem?_replicate] at hr
    split at hr
    · obtain rfl := Option.some.inj hr
      rfl
    · cases hr⟩

theorem RemoteSystem.Step.moved {s s' : RemoteSystem ι F N} {e : RemoteEvent}
    (hs : s.Step fmt epsilon setup e s') (h : s.Sound setup) (hc : DistinctClients setup) :
    RemoteMoved fmt epsilon setup s e s' := by
  obtain ⟨m, hm⟩ := hs
  rcases h.next hc hm with ⟨_, herror⟩ | ⟨_, _, hok, hmoved⟩
  · cases herror
  · cases hok
    exact hmoved

theorem RemoteEvent.Applies.calls {e : RemoteEvent} {index₀ index index' : RolexIndex F Val N}
    {es : List RemoteEvent} (h : RemoteOp.Calls fmt epsilon index₀ (servedCalls es) index)
    (he : e.Applies fmt epsilon index index') :
    RemoteOp.Calls fmt epsilon index₀ (servedCalls (es ++ [e])) index' := by
  rw [servedCalls, List.filterMap_append]
  cases e with
  | serve caller op ans => exact h.step he
  | call caller op =>
    obtain rfl : index' = index := he
    rwa [List.filterMap_cons_none rfl, List.filterMap_nil, List.append_nil]
  | poll caller addedBack =>
    obtain rfl : index' = index := he
    rwa [List.filterMap_cons_none rfl, List.filterMap_nil, List.append_nil]
  | resume caller result =>
    obtain rfl : index' = index := he
    rwa [List.filterMap_cons_none rfl, List.filterMap_nil, List.append_nil]

structure Linearized (fmt : DoubleFormat F) (epsilon : ℕ) (setup : ι → ClientSetup)
    (index₀ : RolexIndex F Val N) (es : List RemoteEvent) (s : RemoteSystem ι F N) : Prop where
  calls : ∀ i cor,
    (follow RemotePhase.next .running (es.filter fun e => e.caller =
    ((setup i).threadId, cor))).isSome
  served : RemoteOp.Calls fmt epsilon index₀ (servedCalls es) s.index
  stops : ∀ m f, s.next fmt epsilon setup m = some (.error f) → ∃ e, f = .index e

theorem remoteCalls_sound (hc : DistinctClients setup) {server : RPCCore}
    (hserver : ∀ i, server.Connected (setup i)) {index₀ : RolexIndex F Val N}
    {es : List RemoteEvent} {s : RemoteSystem ι F N}
    (hrun : Run (RemoteSystem.Step fmt epsilon setup) (RemoteSystem.start server index₀) es s) :
    s.Sound setup :=
  hrun.invariant (RemoteSystem.start_sound hserver index₀) fun _ _ _ h hs => h.moved (hs.moved h hc)

theorem remoteCalls_served (hc : DistinctClients setup) {server : RPCCore}
    (hserver : ∀ i, server.Connected (setup i)) {index₀ : RolexIndex F Val N}
    {es : List RemoteEvent} {s : RemoteSystem ι F N}
    (hrun : Run (RemoteSystem.Step fmt epsilon setup) (RemoteSystem.start server index₀) es s) :
    RemoteOp.Calls fmt epsilon index₀ (servedCalls es) s.index := by
  induction hrun with
  | start => exact .start
  | step hrun hs ih => exact (hs.moved (remoteCalls_sound hc hserver hrun) hc).index.calls ih

/-- Between its start and its return every call is served once, the index goes from call to call as
they are served, and nothing but the index stops a worker. -/
theorem remoteCalls_linearized (hc : DistinctClients setup) {server : RPCCore}
    (hserver : ∀ i, server.Connected (setup i)) {index₀ : RolexIndex F Val N}
    {es : List RemoteEvent} {s : RemoteSystem ι F N}
    (hrun : Run (RemoteSystem.Step fmt epsilon setup) (RemoteSystem.start server index₀) es s) :
    Linearized fmt epsilon setup index₀ es s := by
  have hsound := remoteCalls_sound hc hserver hrun
  refine ⟨fun i cor => ?_, remoteCalls_served hc hserver hrun, fun m f hm => ?_⟩
  · have hstart : InCall (setup i) cor
        ((RemoteSystem.start server index₀).view setup i cor) .running := by
      obtain ⟨phase, hphase⟩ := (RemoteSystem.start_sound hserver index₀).phases i cor
      obtain ⟨rfl, _, _⟩ := hphase.of_not_calling rfl
      exact hphase
    have hstep : ∀ (s : RemoteSystem ι F N) (e : RemoteEvent) (s' : RemoteSystem ι F N),
      s.Sound setup →
        s.Step fmt epsilon setup e s' → s'.Sound setup := fun s e s' h hs => h.moved (hs.moved h hc)
    have hown : ∀ (s : RemoteSystem ι F N) (e : RemoteEvent) (s' : RemoteSystem ι F N)
      (phase : RemotePhase), s.Sound setup →
        InCall (setup i) cor (s.view setup i cor) phase → s.Step fmt epsilon setup e s' →
        e.caller = ((setup i).threadId, cor) →
        ∃ phase', phase.next e = some phase' ∧ InCall (setup i) cor (s'.view setup i cor) phase' :=
      fun s e s' phase h hphase hs hcaller => (hs.moved h hc).own i cor hcaller.symm phase hphase
    have hother : ∀ (s : RemoteSystem ι F N) (e : RemoteEvent) (s' : RemoteSystem ι F N)
      (phase : RemotePhase), s.Sound setup →
        InCall (setup i) cor (s.view setup i cor) phase → s.Step fmt epsilon setup e s' →
        e.caller ≠ ((setup i).threadId, cor) →
        InCall (setup i) cor (s'.view setup i cor) phase := by
      intro s e s' phase h hphase hs hcaller
      rwa [(hs.moved h hc).other i cor hcaller.symm]
    obtain ⟨phase, hfollow, _⟩ :=
      hrun.follow_party RemoteEvent.caller hstep hown hother
        (RemoteSystem.start_sound hserver index₀) hstart
    rw [hfollow]
    rfl
  · rcases hsound.next hc hm with ⟨e, herror⟩ | ⟨_, _, hok, _⟩
    · exact ⟨e, Except.error.inj herror⟩
    · cases hok

/-! ### Every call can end -/

namespace RemoteSystem.Sound

variable {s : RemoteSystem ι F N} {i : ι} {cor : ℕ}

variable (fmt epsilon) in
theorem resumes {ans : Option Val}
    (hphase : InCall (setup i) cor (s.view setup i cor) (.ready ans)) :
    ∃ s', s.Step fmt epsilon setup (.resume ((setup i).threadId, cor) ans) s' ∧
      (s'.clients i).calling cor = none := by
  generalize hv : s.view setup i cor = v at hphase
  cases hphase with
  | @ready op replyBuf =>
    have hcalling : (s.clients i).calling cor = some op := congrArg CallerView.calling hv
    have hcount : (s.clients i).addedBack.count cor = 1 := congrArg CallerView.addedBack hv
    have hbuf : (s.clients i).bufs cor = replyBuf := congrArg CallerView.replyBuf hv
    have hmem : cor ∈ (s.clients i).addedBack := List.count_pos_iff.mp (hcount.symm ▸ one_pos)
    refine ⟨s.resumed i cor, ⟨.resume i cor, ?_⟩, ?_⟩
    · rw [next_resume hmem hcalling, hbuf]
    · rw [resumed]
      dsimp only
      rw [Function.update_self, RemoteClient.resumed]
      dsimp only
      rw [Function.update_self]

variable (fmt epsilon) in
theorem polls (h : s.Sound setup) (hc : DistinctClients setup) {ans : Option Val}
    (hphase : InCall (setup i) cor (s.view setup i cor) (.answered ans)) :
    ∃ s', s.Step fmt epsilon setup (.poll ((setup i).threadId, cor) true) s' ∧ s'.Sound setup ∧
      InCall (setup i) cor (s'.view setup i cor) (.ready ans) := by
  have hphase₀ := hphase
  generalize hv : s.view setup i cor = v at hphase
  cases hphase with
  | @answered op reply raw replyBuf hlen =>
    have hentry : (s.clients i).core.replyStation[cor]? = some (.waiting cor) :=
      congrArg CallerView.entry hv
    have hbuf : (s.clients i).bufs cor = replyBuf := congrArg CallerView.replyBuf hv
    obtain ⟨n, hn, hto⟩ := exists_of_mail (congrArg CallerView.replies hv)
    have hlt : cor < 128 := by
      have hlt := (List.getElem?_eq_some_iff.mp hentry).1
      have hstation := h.station i
      omega
    have hnext : s.next fmt epsilon setup (.poll i n ⟨⟨0, 0, 0, 0⟩, ⟨false, 0⟩⟩) = _ :=
      next_poll hn rfl rfl hlt hentry (hbuf.symm ▸ hlen) _
    obtain ⟨e, s', hok, hmoved⟩ := h.poll hc hnext
    obtain ⟨rfl, rfl⟩ := Prod.mk.inj (Except.ok.inj hok)
    obtain ⟨phase', hphase', hview⟩ := hmoved.own i cor rfl _ hphase₀
    obtain rfl := Option.some.inj hphase'
    exact ⟨_, ⟨_, hnext⟩, h.moved hmoved, hview⟩

theorem serves (h : s.Sound setup) (hc : DistinctClients setup) {op : RemoteOp}
    (hphase : InCall (setup i) cor (s.view setup i cor) (.asked op)) {ans : Option Val}
    {index : RolexIndex F Val N} (happly : op.apply fmt epsilon s.index = .ok (ans, index)) :
    ∃ s', s.Step fmt epsilon setup (.serve ((setup i).threadId, cor) op ans) s' ∧ s'.Sound setup ∧
      InCall (setup i) cor (s'.view setup i cor) (.answered ans) := by
  have hphase₀ := hphase
  generalize hv : s.view setup i cor = v at hphase
  cases hphase with
  | @asked op replyBuf hlen =>
    have hentry : (s.clients i).core.replyStation[cor]? = some (.waiting cor) :=
      congrArg CallerView.entry hv
    obtain ⟨n, hn, hfrom⟩ := exists_of_mail (congrArg CallerView.requests hv)
    have hlt : cor < 128 := by
      have hlt := (List.getElem?_eq_some_iff.mp hentry).1
      have hstation := h.station i
      omega
    obtain ⟨reply, _, hnext⟩ := next_serve_ok setup hn rfl hlt (h.sessions i) happly
      ⟨⟨0, 0, 0, 0⟩, ⟨false, 0⟩⟩
    rcases h.serve hc hnext with ⟨_, herror⟩ | ⟨e, s', hok, hmoved⟩
    · cases herror
    · obtain ⟨rfl, rfl⟩ := Prod.mk.inj (Except.ok.inj hok)
      obtain ⟨phase', hphase', hview⟩ := hmoved.own i cor rfl _ hphase₀
      obtain rfl : RemotePhase.answered ans = phase' :=
        Option.some.inj ((if_pos rfl).symm.trans hphase')
      exact ⟨_, ⟨_, hnext⟩, h.moved hmoved, hview⟩

variable (fmt epsilon i cor) in
theorem calls (h : s.Sound setup) (hc : DistinctClients setup)
    (hcor : 1 ≤ cor ∧ cor ≤ (setup i).coros) (hcalling : (s.clients i).calling cor = none)
    (op : RemoteOp) : ∃ s', s.Step fmt epsilon setup (.call ((setup i).threadId, cor) op) s' ∧
    s'.Sound setup ∧ s'.index = s.index ∧
      InCall (setup i) cor (s'.view setup i cor) (.asked op) := by
  obtain ⟨phase, hphase⟩ := h.phases i cor
  obtain ⟨rfl, _, hentry⟩ := hphase.of_not_calling hcalling
  have hcoros := hc.coros i
  have hlt : cor < (s.clients i).core.replyStation.length := by
    rw [h.station]
    omega
  have hr := List.getElem?_eq_getElem hlt
  have hnext : s.next fmt epsilon setup (.call i cor op ⟨0, 0, 0, 0⟩
      ⟨List.replicate sizeofReplyValue 0, List.length_replicate⟩) = _ :=
    next_call hcor hcalling (by omega) hr (hentry _ hr) op _ _
  obtain ⟨e, s', hok, hmoved⟩ := h.call hc hnext
  obtain ⟨rfl, rfl⟩ := Prod.mk.inj (Except.ok.inj hok)
  obtain ⟨phase', hphase', hview⟩ := hmoved.own i cor rfl _ hphase
  obtain rfl := Option.some.inj hphase'
  exact ⟨_, ⟨_, hnext⟩, h.moved hmoved, rfl, hview⟩

variable (i cor) in
theorem completes (h : s.Sound setup) (hc : DistinctClients setup)
    (hcor : 1 ≤ cor ∧ cor ≤ (setup i).coros) (hcalling : (s.clients i).calling cor = none)
    {op : RemoteOp} {ans : Option Val} {index : RolexIndex F Val N}
    (happly : op.apply fmt epsilon s.index = .ok (ans, index)) :
    ∃ s', Run (RemoteSystem.Step fmt epsilon setup) s
        [.call ((setup i).threadId, cor) op, .serve ((setup i).threadId, cor) op ans,
          .poll ((setup i).threadId, cor) true, .resume ((setup i).threadId, cor) ans] s' ∧
      s'.Sound setup ∧ s'.index = index ∧
      ∀ j c, ((setup j).threadId, c) ≠ ((setup i).threadId, cor) →
        s'.view setup j c = s.view setup j c := by
  obtain ⟨s₁, hcall, h₁, hindex₁, hphase₁⟩ := h.calls fmt epsilon i cor hc hcor hcalling op
  obtain ⟨s₂, hserve, h₂, hphase₂⟩ := h₁.serves hc hphase₁ (hindex₁ ▸ happly)
  obtain ⟨s₃, hpoll, h₃, hphase₃⟩ := h₂.polls fmt epsilon hc hphase₂
  obtain ⟨s₄, hresume, _⟩ := resumes fmt epsilon hphase₃
  have hm₁ := hcall.moved h hc
  have hm₂ := hserve.moved h₁ hc
  have hm₃ := hpoll.moved h₂ hc
  have hm₄ := hresume.moved h₃ hc
  have hserved : op.apply fmt epsilon s₁.index = .ok (ans, s₂.index) := hm₂.index
  rw [hindex₁, happly] at hserved
  have hlater : s₄.index = s₂.index := Eq.trans hm₄.index hm₃.index
  refine ⟨s₄, .step (.step (.step (.step .start hcall) hserve) hpoll) hresume, h₃.moved hm₄,
    hlater.trans (Prod.mk.inj (Except.ok.inj hserved)).2.symm, fun j c hne => ?_⟩
  rw [hm₄.other j c hne, hm₃.other j c hne, hm₂.other j c hne, hm₁.other j c hne]

end RemoteSystem.Sound

/-- In every state reached, a call that is under way ends when its own datagrams arrive and its
coroutine is resumed, or the index stops on it. -/
theorem remoteCalls_complete (hc : DistinctClients setup) {server : RPCCore}
    (hserver : ∀ i, server.Connected (setup i)) {index₀ : RolexIndex F Val N}
    {es : List RemoteEvent} {s : RemoteSystem ι F N}
    (hrun : Run (RemoteSystem.Step fmt epsilon setup) (RemoteSystem.start server index₀) es s)
    {i : ι} {cor : ℕ} {op : RemoteOp} (hcalling : (s.clients i).calling cor = some op) :
    (∃ es' s', Run (RemoteSystem.Step fmt epsilon setup) s es' s' ∧
      (∀ e ∈ es', e.caller = ((setup i).threadId, cor)) ∧
      (s'.clients i).calling cor = none) ∨ ∃ e, op.apply fmt epsilon s.index = .error e := by
  have hsound := remoteCalls_sound hc hserver hrun
  obtain ⟨phase, hphase⟩ := hsound.phases i cor
  have hop : (s.view setup i cor).calling = some op := hcalling
  cases phase with
  | running =>
    generalize hv : s.view setup i cor = v at hphase hop
    cases hphase
    cases hop
  | ready ans =>
    obtain ⟨s₁, hresume, hdone⟩ := RemoteSystem.Sound.resumes fmt epsilon hphase
    exact Or.inl ⟨_, s₁, .step .start hresume, by simp [RemoteEvent.caller], hdone⟩
  | answered ans =>
    obtain ⟨s₁, hpoll, _, hphase₁⟩ := hsound.polls fmt epsilon hc hphase
    obtain ⟨s₂, hresume, hdone⟩ := RemoteSystem.Sound.resumes fmt epsilon hphase₁
    exact Or.inl ⟨_, s₂, .step (.step .start hpoll) hresume, by simp [RemoteEvent.caller], hdone⟩
  | asked op' =>
    obtain rfl : op' = op := by
      generalize hv : s.view setup i cor = v at hphase hop
      cases hphase
      exact Option.some.inj hop
    cases happly : op'.apply fmt epsilon s.index with
    | error e => exact Or.inr ⟨e, rfl⟩
    | ok r =>
      obtain ⟨s₁, hserve, hsound₁, hphase₁⟩ := hsound.serves hc hphase happly
      obtain ⟨s₂, hpoll, _, hphase₂⟩ := hsound₁.polls fmt epsilon hc hphase₁
      obtain ⟨s₃, hresume, hdone⟩ := RemoteSystem.Sound.resumes fmt epsilon hphase₂
      exact Or.inl ⟨_, s₃, .step (.step (.step .start hserve) hpoll) hresume,
        by simp [RemoteEvent.caller], hdone⟩

end Runs

/-! ### The index as one map -/

def RemoteOp.key : RemoteOp → Key
  | search key => key
  | put key _ => key
  | update key _ => key
  | remove key => key
  | scan key _ => key

def RolexIndex.Full {F V : Type} {N : ℕ} (r : RolexIndex F V N) (key : Key) : Prop :=
  ∃ m, r.models[r.modelForKey key]? = some m ∧ m.ltable.available = kSynonymMax - 1

/-- A call, and what its caller gets, on the map that an index stores. A full table refuses an
absent key. -/
inductive MapCall {F : Type} {N : ℕ} (r : RolexIndex F Val N) (es : List (Key × Val)) :
    RemoteOp × Option Val → List (Key × Val) → Prop where
  | search (key : Key) : MapCall r es (.search key, es.lookup key) es
  | put {key : Key} (val : Val) (h : es.lookup key = none) : MapCall r es (.put key val, none)
      (put key val es)
  | present {key : Key} (val : Val) (h : es.lookup key ≠ none) : MapCall r es (.put key val,
      none) es
  | refused {key : Key} (val : Val) (h : es.lookup key = none) (hfull : r.Full key) : MapCall r es
      (.put key val, none) es
  | update (key : Key) (val : Val) : MapCall r es (.update key val, none) (assign key val es)
  | scan (key : Key) (n : Fin (2 ^ 64)) : MapCall r es (.scan key n, none) es

section Map

variable {F : Type} {N : ℕ} {fmt : DoubleFormat F} {epsilon : ℕ} {r r' : RolexIndex F Val N}
  {slots : ℕ → ℕ → List ℕ} {chains₀ chains : ℕ → ℕ → List (List (Key × Val))} {key : Key}

theorem Homes.lookup_pairs (h : Homes r chains₀ chains) (hs : IndexSound r slots chains)
    {m : SubModel F} (hm : r.models[r.modelForKey key]? = some m)
    (hlt : entryFor (chains₀ (r.modelForKey key)) m.ltable.size key < m.ltable.size) :
    (chains (r.modelForKey key)
      (entryFor (chains₀ (r.modelForKey key)) m.ltable.size key)).flatten.lookup key =
      (pairs r chains).lookup key := by
  have hi := (List.getElem?_eq_some_iff.mp hm).1
  have hsize := r.tableSize_eq hm
  refine Option.ext fun val => ?_
  rw [lookup_eq_some ((hs.sound _ m hm).ordered _ hlt).ascending, lookup_eq_some (h.ascending hs),
    mem_pairs]
  refine ⟨fun hmem => ⟨_, hi, _, hsize.symm ▸ hlt, hmem⟩, ?_⟩
  rintro ⟨j, hj, b, hb, hmem⟩
  obtain ⟨_, hroute, hentry⟩ := h.home j hj b hb _ hmem
  subst hroute
  rwa [← hsize, hentry]

theorem Homes.search_of_ok (h : Homes r chains₀ chains) (hs : IndexSound r slots chains)
    (hg : Guided fmt epsilon r chains₀) (hk : key < ⊤) {val : Option Val}
    (hok : r.search fmt epsilon key = .ok val) : val = (pairs r chains).lookup key := by
  obtain ⟨m, hmodel, _⟩ := bind_eq_ok hok
  have hm := model_ok hmodel
  obtain ⟨hlo, hhi, hsize⟩ := hg _ m hm key hk
  have hlookup := (hs.sound _ m hm).search_ok hk (hlo.trans hhi) hsize
  rw [h.target_eq hg hm hk, h.lookup_pairs hs hm (by omega)] at hlookup
  rw [RolexIndex.search_eq hm, hlookup] at hok
  exact (Except.ok.inj hok).symm

theorem Homes.answer_of_ok (h : Homes r chains₀ chains) (hs : IndexSound r slots chains)
    (hg : Guided fmt epsilon r chains₀) (hN : Even N) (hN0 : 0 < N) {op : TableOp Key Val}
    (hop : op.Stores) (hk : op.key < ⊤) {ans : Answer Val}
    (hok : r.call fmt epsilon op = .ok (ans, r')) :
    ∃ m, r.models[r.modelForKey op.key]? = some m ∧ m.ltable.available ≤ kSynonymMax - 1 ∧
      ans = op.answer (decide (m.ltable.available < kSynonymMax - 1)) (pairs r chains) := by
  obtain ⟨m, a, he⟩ := hs.call_of_ok hN hN0 hop hk hok
  have ha := he.target.trans (h.target_eq hg he.model hk)
  have hlt := he.lt
  have hanswer := he.answer
  rw [ha] at hlt hanswer
  have hlookup := h.lookup_pairs hs he.model hlt
  refine ⟨m, he.model, (hs.sound _ m he.model).countLe, hanswer.trans ?_⟩
  cases op with
  | search key => exact hop.elim
  | remove key => exact hop.elim
  | update key val =>
    rw [TableOp.key] at hlookup
    rw [TableOp.key, TableOp.answer, TableOp.answer, hlookup]
  | insert key val =>
    rw [TableOp.key] at hlookup
    rw [TableOp.key, TableOp.answer, TableOp.answer, hlookup]

theorem Homes.mapCall (h : Homes r chains₀ chains) (hs : IndexSound r slots chains)
    (hg : Guided fmt epsilon r chains₀) (hN : Even N) (hN0 : 0 < N) {op : RemoteOp}
    (hop : ∀ key, op ≠ .remove key) (hk : op.key < ⊤) {ans : Option Val}
    (hok : op.apply fmt epsilon r = .ok (ans, r')) :
    SameShape r r' ∧ ∃ slots' chains', IndexSound r' slots' chains' ∧
      Homes r' chains₀ chains' ∧ MapCall r (pairs r chains) (op, ans) (pairs r' chains') := by
  cases op with
  | search key =>
    obtain ⟨val, hsearch, hok⟩ := bind_eq_ok hok
    obtain ⟨rfl, rfl⟩ := Prod.mk.inj (Except.ok.inj hok)
    obtain rfl := h.search_of_ok hs hg hk hsearch
    exact ⟨.refl r, slots, chains, hs, h, .search key⟩
  | put key val =>
    obtain ⟨res, hins, hok⟩ := bind_eq_ok hok
    obtain ⟨rfl, rfl⟩ := Prod.mk.inj (Except.ok.inj hok)
    have hcall : r.call fmt epsilon (.insert key val) = .ok (.done res.1, res.2) := by
      rw [RolexIndex.call, hins, ok_bind]
    have hstores : (TableOp.insert key val).Stores := trivial
    obtain ⟨m, hm, hle, hanswer⟩ := h.answer_of_ok hs hg hN hN0 hstores hk hcall
    obtain ⟨hshape, slots', chains', hs', h', hpairs⟩ := h.call hs hg hN hN0 hstores hk hcall
    refine ⟨hshape, slots', chains', hs', h', ?_⟩
    rw [TableOp.answer, Answer.done.injEq] at hanswer
    rw [hpairs, hanswer]
    cases hlookup : (pairs r chains).lookup key with
    | some v =>
      rw [Option.isNone_some, Bool.and_false]
      exact .present val (by rw [hlookup]; exact Option.some_ne_none v)
    | none =>
      rw [Option.isNone_none, Bool.and_true]
      by_cases hroom : m.ltable.available < kSynonymMax - 1
      · rw [decide_eq_true hroom]
        exact .put val hlookup
      · rw [decide_eq_false hroom]
        exact .refused val hlookup ⟨m, hm, by omega⟩
  | update key val =>
    obtain ⟨res, hup, hok⟩ := bind_eq_ok hok
    obtain ⟨rfl, rfl⟩ := Prod.mk.inj (Except.ok.inj hok)
    have hcall : r.call fmt epsilon (.update key val) = .ok (.done res.1, res.2) := by
      rw [RolexIndex.call, hup, ok_bind]
    have hstores : (TableOp.update key val).Stores := trivial
    obtain ⟨m, hm, hle, hanswer⟩ := h.answer_of_ok hs hg hN hN0 hstores hk hcall
    obtain ⟨hshape, slots', chains', hs', h', hpairs⟩ := h.call hs hg hN hN0 hstores hk hcall
    refine ⟨hshape, slots', chains', hs', h', ?_⟩
    rw [TableOp.answer, Answer.done.injEq] at hanswer
    have heffect : (TableOp.update key val).effect (.done res.1) (pairs r chains) =
        assign key val (pairs r chains) := by
      rw [hanswer]
      cases hlookup : (pairs r chains).lookup key with
      | some v => rfl
      | none => exact (assign_of_forall_ne (lookup_eq_none.mp hlookup)).symm
    rw [hpairs, heffect]
    exact .update key val
  | remove key => exact absurd rfl (hop key)
  | scan key n =>
    obtain ⟨vals, _, hok⟩ := bind_eq_ok hok
    obtain ⟨rfl, rfl⟩ := Prod.mk.inj (Except.ok.inj hok)
    exact ⟨.refl r, slots, chains, hs, h, .scan key n⟩

/-- A run of calls on an index whose pairs are known, with the pairs at every moment. -/
theorem Homes.mapCalls (h : Homes r chains₀ chains) (hs : IndexSound r slots chains)
    (hg : Guided fmt epsilon r chains₀) (hN : Even N) (hN0 : 0 < N)
    {calls : List (RemoteOp × Option Val)}
    (hcalls : ∀ call ∈ calls, (∀ key, call.1 ≠ .remove key) ∧ call.1.key < ⊤)
    (hrun : RemoteOp.Calls fmt epsilon r calls r') :
    SameShape r r' ∧ ∃ slots' chains', IndexSound r' slots' chains' ∧
      Homes r' chains₀ chains' ∧
      Run (fun s call s' => call.1.apply fmt epsilon s.1 = .ok (call.2, s'.1) ∧
        MapCall s.1 s.2 call s'.2) (r, pairs r chains) calls (r', pairs r' chains') := by
  induction hrun with
  | start => exact ⟨.refl r, slots, chains, hs, h, .start⟩
  | @step calls r₁ r₂ call hrun happly ih =>
    obtain ⟨hshape, slots₁, chains₁, hs₁, h₁, hmap⟩ :=
      ih fun c hc => hcalls c (List.mem_append_left _ hc)
    obtain ⟨hop, hk⟩ := hcalls call (List.mem_append_right _ (List.mem_singleton_self call))
    obtain ⟨hshape', slots', chains', hs', h', hcall⟩ :=
      h₁.mapCall hs₁ (hg.congr hshape) hN hN0 hop hk happly
    exact ⟨hshape.trans hshape', slots', chains', hs', h', hmap.step ⟨happly, hcall⟩⟩

theorem train_homes {raw : ℕ → Fin kSynonymMax → TableEntry} (hN0 : 0 < N)
    {r₀ r₁ : RolexIndex F Val N} (hfresh : r₀.RM.leafAllocator.Fresh) (hmodels : r₀.models = [])
    (hkeys : r₀.modelKeys = []) {data : List (Key × Val)} (hne : data ≠ [])
    (htrain : r₀.train fmt epsilon raw data = .ok r₁) :
    ∃ chains, IndexSound r₁ (fun _ _ => []) chains ∧ Homes r₁ chains chains ∧
      pairs r₁ chains = storable data := by
  have hasc := ascending_of_train htrain
  obtain ⟨_, segs, r, alloc, happ, rfl, _, rfl⟩ := RolexIndex.train_appended hne htrain
  have hsound := happ.indexSound hN0 hfresh hmodels hkeys hasc
  have hhomes := happ.homes hmodels hkeys hasc
  exact ⟨trainedChains N segs, ⟨hsound.sound, hsound.apart⟩, ⟨hhomes.opens, hhomes.home⟩,
    happ.pairs_eq hN0 hfresh hmodels hkeys hasc⟩

/-- Every run of the remote calls on a trained index is a run of calls on the map of its pairs, in
the order in which the server handles them. -/
theorem remoteCalls_map {ι : Type} [DecidableEq ι] {setup : ι → ClientSetup}
    {raw : ℕ → Fin kSynonymMax → TableEntry} (hN : Even N) (hN0 : 0 < N)
    {r₀ r₁ : RolexIndex F Val N} (hfresh : r₀.RM.leafAllocator.Fresh) (hmodels : r₀.models = [])
    (hkeys : r₀.modelKeys = []) {data : List (Key × Val)} (hne : data ≠ [])
    (htrain : r₀.train fmt epsilon raw data = .ok r₁) (hwin : WindowsLead fmt epsilon r₁)
    (hc : DistinctClients setup) {server : RPCCore} (hserver : ∀ i, server.Connected (setup i))
    {es : List RemoteEvent} {s : RemoteSystem ι F N}
    (hrun : Run (RemoteSystem.Step fmt epsilon setup) (RemoteSystem.start server r₁) es s)
    (hcalls : ∀ call ∈ servedCalls es, (∀ key, call.1 ≠ .remove key) ∧ call.1.key < ⊤) :
    ∃ ps, Run (fun s call s' => call.1.apply fmt epsilon s.1 = .ok (call.2, s'.1) ∧
      MapCall s.1 s.2 call s'.2)
        (r₁, storable data) (servedCalls es) (s.index, ps) ∧
      s.index.stored = .ok ps ∧ Ascending ps := by
  obtain ⟨chains, hs, hh, hpairs⟩ := train_homes hN0 hfresh hmodels hkeys hne htrain
  obtain ⟨_, slots', chains', hs', hh', hmap⟩ := hh.mapCalls hs (hwin.guided hs) hN hN0 hcalls
    (remoteCalls_served hc hserver hrun)
  rw [hpairs] at hmap
  exact ⟨_, hmap, hs'.stored_ok, hh'.ascending hs'⟩

end Map

/-! ### Two clients -/

def clientPair (i : Bool) : ClientSetup := bif i then workerOf 1 3 else workerOf 0 2

theorem clientPair_distinct : DistinctClients clientPair := by
  refine ⟨fun i => ?_, fun i j h => ?_, fun i j h => ?_⟩
  · cases i <;> decide
  · cases i <;> cases j <;> first | rfl | exact absurd h (by decide)
  · cases i <;> cases j <;> first | rfl | exact absurd h (by decide)

theorem clientPair_connected : ∃ server : RPCCore, ∀ i, server.Connected (clientPair i) := by
  obtain ⟨core₁, _, _, hself₁, hother₁⟩ :=
    (RPCCore.construct 12).addImpl_ok (clientPair false).threadId (clientPair false).attr
  obtain ⟨core₂, _, _, hself₂, hother₂⟩ :=
    core₁.addImpl_ok (clientPair true).threadId (clientPair true).attr
  refine ⟨core₂, fun i => ?_⟩
  cases i with
  | false => exact (hother₂ _ (by decide)).trans hself₁
  | true =>
    rw [hother₁ _ (by decide)] at hself₂
    exact hself₂

def putThenSearch : List RemoteEvent :=
  [.call (0, 1) (.put 7 70), .serve (0, 1) (.put 7 70) none, .poll (0, 1) true, .resume (0, 1) none,
    .call (1, 1) (.search 7), .serve (1, 1) (.search 7) (some 70), .poll (1, 1) true,
    .resume (1, 1) (some 70)]

theorem windowsLead_of_flat {V : Type} {raw : ℕ → Fin kSynonymMax → TableEntry}
    {r₀ r : RolexIndex ℚ V 2} (hfresh : r₀.RM.leafAllocator.Fresh) (hmodels : r₀.models = [])
    (hkeys : r₀.modelKeys = []) {data : List (Key × V)}
    (htrain : r₀.train exactFormat 1 raw data = .ok r)
    (hflat : ∀ m ∈ r.models, m.model = ⟨0, 0⟩ ∧ m.capacity = 1 ∧ m.ltable.size = 1) :
    WindowsLead exactFormat 1 r := by
  intro m hm key _
  obtain ⟨hmodel, hcap, hsize⟩ := hflat m hm
  obtain ⟨i, hi, hget⟩ := List.mem_iff_getElem.mp hm
  have ht := trainedModel_of_train exactFormat_exact le_rfl (by norm_num) hfresh hmodels hkeys
    (ascending_of_train htrain) htrain (List.getElem?_eq_some_iff.mpr ⟨hi, hget⟩)
  have hzero : m.model.exactPos exactFormat key = 0 := by
    rw [LinearRegressionModel.exactPos, hmodel]
    show ((toInt64 ((0 : ℚ) * (key.val : ℚ)) : ℤ) : ℚ) + 0 = 0
    rw [zero_mul, add_zero]
    rfl
  have hend : hiEnd (m.model.exactPos exactFormat key) 1 m.capacity = 0 := by
    rw [hzero, hcap, hiEnd, if_pos (by norm_num)]
    norm_num
  have hpos : -1 < hiEnd (m.model.exactPos exactFormat key) 1 m.capacity := by
    rw [hend]
    norm_num
  obtain ⟨hle, hhi⟩ := ht.hi_le exactFormat_exact hpos
  have hlast : m.lastStart r.RM.leafAllocator key = 0 := by
    rw [SubModel.lastStart, hsize]
    rfl
  have hcap' : m.capacity - 1 = 0 := by rw [hcap]
  rw [ht.window_of_gt exactFormat_exact hpos, hlast, hsize]
  exact ⟨by dsimp only; omega, Nat.zero_le _, by dsimp only; omega⟩

theorem emptyWords_fresh :
    emptyWords.RM.leafAllocator.Fresh := LeafAllocator.prealloc_fresh _ _ two_hundred_le

theorem putThenSearch_ok : ∃ r₁ r₂ r₃ : RolexIndex ℚ Val 2,
    emptyWords.train exactFormat 1 noEntries [(5, 50)] = .ok r₁ ∧
    (∀ m ∈ r₁.models, m.model = ⟨0, 0⟩ ∧ m.capacity = 1 ∧ m.ltable.size = 1) ∧
    (RemoteOp.put 7 70).apply exactFormat 1 r₁ = .ok (none, r₂) ∧
    (RemoteOp.search 7).apply exactFormat 1 r₂ = .ok (some 70, r₃) := by
  obtain ⟨r₁, htrain, hp⟩ := exists_ok (p := fun r : RolexIndex ℚ Val 2 =>
      decide (∀ m ∈ r.models, m.model = ⟨0, 0⟩ ∧ m.capacity = 1 ∧ m.ltable.size = 1) &&
        ((RemoteOp.put 7 70).apply exactFormat 1 r).toOption.any
          fun q : Option Val × RolexIndex ℚ Val 2 => decide (q.1 = none) &&
          ((RemoteOp.search 7).apply exactFormat 1 q.2).toOption.any
            fun q' : Option Val × RolexIndex ℚ Val 2 => decide (q'.1 = some 70))
    (by decide +kernel :
      (emptyWords.train exactFormat 1 noEntries [(5, 50)]).toOption.any _ = true)
  obtain ⟨hflat, hput⟩ := Bool.and_eq_true_iff.mp hp
  obtain ⟨⟨ans, r₂⟩, hput, hsearch⟩ := exists_ok hput
  obtain ⟨hans, hsearch⟩ := Bool.and_eq_true_iff.mp hsearch
  obtain ⟨⟨ans', r₃⟩, hsearch, hans'⟩ := exists_ok hsearch
  obtain rfl := of_decide_eq_true hans
  obtain rfl := of_decide_eq_true hans'
  exact ⟨r₁, r₂, r₃, htrain, of_decide_eq_true hflat, hput, hsearch⟩

theorem putThenSearch_run : ∃ (r₁ : RolexIndex ℚ Val 2) (server : RPCCore)
    (s : RemoteSystem Bool ℚ 2),
    emptyWords.train exactFormat 1 noEntries [(5, 50)] = .ok r₁ ∧ WindowsLead exactFormat 1 r₁ ∧
    (∀ i, server.Connected (clientPair i)) ∧
    Run (RemoteSystem.Step exactFormat 1 clientPair) (RemoteSystem.start server r₁)
      putThenSearch s := by
  obtain ⟨r₁, r₂, r₃, htrain, hflat, hput, hsearch⟩ := putThenSearch_ok
  obtain ⟨server, hserver⟩ := clientPair_connected
  have hwin := windowsLead_of_flat emptyWords_fresh rfl rfl htrain hflat
  obtain ⟨s₁, hrun₁, h₁, rfl, hother⟩ := (RemoteSystem.start_sound hserver r₁).completes false 1
    clientPair_distinct (by decide) rfl hput
  have hcalling : (s₁.clients true).calling 1 = none :=
    congrArg CallerView.calling (hother true 1 (by decide))
  obtain ⟨s₂, hrun₂, _⟩ :=
    h₁.completes true 1 clientPair_distinct (by decide) hcalling hsearch
  exact ⟨r₁, server, s₂, htrain, hwin, hserver, hrun₁.append hrun₂⟩

theorem remoteCalls_linearized_two : ∃ (r₁ : RolexIndex ℚ Val 2) (s : RemoteSystem Bool ℚ 2),
    Linearized exactFormat 1 clientPair r₁ putThenSearch s := by
  obtain ⟨r₁, server, s, _, _, hserver, hrun⟩ := putThenSearch_run
  exact ⟨r₁, s, remoteCalls_linearized clientPair_distinct hserver hrun⟩

theorem remoteCalls_complete_two : ∃ s : RemoteSystem Bool ℚ 2,
    (s.clients false).calling 1 = some (.put 7 70) ∧
    ((∃ es' s', Run (RemoteSystem.Step exactFormat 1 clientPair) s es' s' ∧
        (∀ e ∈ es', e.caller = ((clientPair false).threadId, 1)) ∧
        (s'.clients false).calling 1 = none) ∨
      ∃ e, (RemoteOp.put 7 70).apply exactFormat 1 s.index = .error e) := by
  obtain ⟨r₁, _, _, _, _, hserver, _⟩ := putThenSearch_run
  obtain ⟨s, hcall, _, _, hphase⟩ := (RemoteSystem.start_sound hserver r₁).calls exactFormat 1
    false 1 clientPair_distinct (by decide) rfl (.put 7 70)
  have hcalling : (s.clients false).calling 1 = some (.put 7 70) := by
    have hview : (s.view clientPair false 1).calling = (s.clients false).calling 1 := rfl
    generalize s.view clientPair false 1 = v at hphase hview
    cases hphase
    exact hview.symm
  exact ⟨s, hcalling, remoteCalls_complete clientPair_distinct hserver
    (.step .start hcall) hcalling⟩

theorem remoteCalls_map_two :
    ∃ (r₁ : RolexIndex ℚ Val 2) (s : RemoteSystem Bool ℚ 2) (ps : List (Key × Val)),
    Run (fun s call s' => call.1.apply exactFormat 1 s.1 = .ok (call.2, s'.1) ∧
      MapCall s.1 s.2 call s'.2) (r₁, storable [(5, 50)]) (servedCalls putThenSearch) (s.index,
        ps) ∧ s.index.stored = .ok ps ∧ Ascending ps := by
  obtain ⟨r₁, server, s, htrain, hwin, hserver, hrun⟩ := putThenSearch_run
  have hcalls : ∀ call ∈ servedCalls putThenSearch, (∀ key, call.1 ≠ .remove key) ∧
      call.1.key < ⊤ := by
    intro call hcall
    obtain rfl | hcall := List.mem_cons.mp hcall
    · exact ⟨(fun key hkey => by cases hkey), by decide⟩
    · obtain rfl := List.mem_singleton.mp hcall
      exact ⟨(fun key hkey => by cases hkey), by decide⟩
  exact ⟨r₁, s, remoteCalls_map (by decide) (by norm_num) emptyWords_fresh rfl rfl
    (by decide) htrain hwin clientPair_distinct hserver hrun hcalls⟩

end Rolex
