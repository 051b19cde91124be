import PlacitumNode.Response.Filter

/-!
# A gated response is neither leaked, lost nor duplicated

In hold mode gate the response is held until the phase settles.  It settles once; then the client
gets exactly what the upstream sent, or nothing of what was held.

* `Fate`: what the inspection can do to a held response, `phaseRun_fate`;
* `Inv`, `inv_step`, `inv_run`: what the filters keep;
* `gated_response`: the whole run.
-/

namespace Response

open Octets Waves Run

/-! ### What the inspection can do -/

/-- The response is held: nothing has been passed on. -/
structure Waiting (s : St) : Prop where
  entered : s.entered = true
  settled : s.settled = false
  streaming : s.streaming = false
  denied : s.denied = false
  monitor : s.monitor = false
  out : s.out = []

/-- The phase is settled. -/
structure Settled (s : St) : Prop where
  entered : s.entered = true
  settled : s.settled = true
  streaming : s.streaming = false
  monitor : s.monitor = false

/-- The header and the held chain, as a release passes them on. -/
def released (hold : Chain) : List Out := .header :: if hold = [] then [] else [.body hold]

/-- From the held response of `s` the inspection leads to `s'`: the response is still held, it has
been released, or it has been denied. -/
inductive Fate (s s' : St) : Prop
  | held : Waiting s' → s'.hold = s.hold → s'.holdSize = s.holdSize → Fate s s'
  | released : Settled s' → s'.denied = false → s'.out = released s.hold → Fate s s'
  | denied (status : Rc) : Settled s' → s'.denied = true → s'.out = [.page status] → Fate s s'

/-- The next header filter succeeds and leaves the body to be sent. -/
structure Env.Passes (env : Env) : Prop where
  headerRc : env.headerRc.fails = false
  headerOnly : env.headerOnly = false

variable {c : Conf} {env : Env} {s s' : St}

theorem release_of_settled (h : s.settled = true) : release env s = (.ok, s) := if_pos h

theorem deny_of_settled (h : s.settled = true) (status : Rc) : deny env s status = (.ok, s) :=
  if_pos h

theorem release_settles (henv : env.Passes) (h : Waiting s) :
    Settled (release env s).2 ∧ (release env s).2.denied = false ∧
      (release env s).2.out = released s.hold := by
  unfold release nextHeader nextBody
  rw [if_neg (by simp [h.settled])]
  simp only [henv.headerRc, henv.headerOnly, Bool.or_self, Bool.false_eq_true, if_false]
  split_ifs with hh
  · exact ⟨⟨h.entered, rfl, rfl, h.monitor⟩, h.denied, by simp [released, hh, h.out]⟩
  · exact ⟨⟨h.entered, rfl, rfl, h.monitor⟩, h.denied, by simp [released, hh, h.out]⟩

theorem deny_settles (h : Waiting s) (status : Rc) :
    Settled (deny env s status).2 ∧ (deny env s status).2.denied = true ∧
      (deny env s status).2.out = [.page status] := by
  unfold deny
  rw [if_neg (by simp [h.settled])]
  exact ⟨⟨h.entered, rfl, rfl, h.monitor⟩, rfl, by simp [h.out]⟩

theorem release_fate (henv : env.Passes) (h : Waiting s) : Fate s (release env s).2 := by
  obtain ⟨h₁, h₂, h₃⟩ := release_settles henv h
  exact .released h₁ h₂ h₃

theorem deny_fate (h : Waiting s) (status : Rc) : Fate s (deny env s status).2 := by
  obtain ⟨h₁, h₂, h₃⟩ := @deny_settles env _ h status
  exact .denied status h₁ h₂ h₃

theorem outcome_of_settled (hgate : c.hold = .gate) (h : s.settled = true) (rc : Rc) :
    (outcome c env s rc).2 = s := by
  cases rc <;> simp [outcome, hgate, release_of_settled h, deny_of_settled h]

theorem Fate.trans {t : St} (h : Fate s t) (h' : Waiting t → Fate t s')
    (hs : t.settled = true → s' = t) : Fate s s' := by
  cases h with
  | held hw h₁ h₂ =>
    cases h' hw with
    | held hw' g₁ g₂ => exact .held hw' (g₁.trans h₁) (g₂.trans h₂)
    | released hset hd hout => exact .released hset hd (by rw [hout, h₁])
    | denied status hset hd hout => exact .denied status hset hd hout
  | released hset hd hout => rw [hs hset.settled]; exact .released hset hd hout
  | denied status hset hd hout => rw [hs hset.settled]; exact .denied status hset hd hout

theorem outcome_fate (hgate : c.hold = .gate) (henv : env.Passes) (h : Waiting s) (rc : Rc) :
    Fate s (outcome c env s rc).2 := by
  cases rc with
  | ok => exact release_fate henv h
  | declined => exact release_fate henv h
  | again => exact deny_fate h _
  | done =>
    simp only [outcome, hgate]
    exact .held h rfl rfl
  | error => exact deny_fate h _
  | status n => exact deny_fate h _

theorem resumed_fate (hgate : c.hold = .gate) (henv : env.Passes) {x : Rc × St}
    (h : Fate s x.2) : Fate s (resumed c env x) := by
  unfold resumed
  split_ifs
  · exact h
  · exact h
  · exact h.trans (fun hw => outcome_fate hgate henv hw x.1)
      fun hset => outcome_of_settled hgate hset x.1

/-- **The inspection.** Whatever it does in one call, the response stays held, is released or is
denied. -/
theorem phaseRun_fate (hgate : c.hold = .gate) (henv : env.Passes) (w : Wave) :
    ∀ {s}, Waiting s → Fate s (phaseRun c env w s).2 := by
  have hwait : ∀ {s : St} {wb br}, Waiting s → Fate s { s with waitBody := wb, bodyReady := br } :=
    fun h => .held ⟨h.entered, h.settled, h.streaming, h.denied, h.monitor, h.out⟩ rfl rfl
  induction w with
  | answers rc => exact fun h => .held h rfl rfl
  | pending => exact fun h => .held h rfl rfl
  | bodyLater =>
    intro s h
    simp only [phaseRun]
    split_ifs
    · exact hwait h
    · exact hwait h
  | bodyNow w ih =>
    intro s h
    simp only [phaseRun]
    split_ifs
    · have hp : Waiting s.placing :=
        ⟨h.entered, h.settled, h.streaming, h.denied, h.monitor, h.out⟩
      exact resumed_fate hgate henv ((hwait h).trans (fun _ => ih hp) fun hset => by
        rw [h.settled] at hset
        cases hset)
    · exact hwait h

theorem placeIfReady_fate (hgate : c.hold = .gate) (henv : env.Passes) (h : Waiting s)
    (placed : Option Wave) : Fate s (placeIfReady c env s placed) := by
  have hp : Waiting s.placing := ⟨h.entered, h.settled, h.streaming, h.denied, h.monitor, h.out⟩
  have hplace : Fate s s.placing := .held hp rfl rfl
  unfold placeIfReady
  split_ifs
  · cases placed with
    | none => exact hplace
    | some w =>
      exact resumed_fate hgate henv (hplace.trans (fun _ => phaseRun_fate hgate henv w hp)
        fun hset => by rw [hp.settled] at hset; cases hset)
  · exact .held h rfl rfl

theorem overlimit_fate (hgate : c.hold = .gate) (henv : env.Passes) (h : Waiting s)
    (placed : Option Wave) : Fate s (overlimit c env s placed).2 := by
  unfold overlimit
  split
  · have hc : Waiting { s with capped := true } :=
      ⟨h.entered, h.settled, h.streaming, h.denied, h.monitor, h.out⟩
    cases placeIfReady_fate hgate henv hc placed with
    | held hw h₁ h₂ => exact .held hw h₁ h₂
    | released hset hd hout => exact .released hset hd hout
    | denied status hset hd hout => exact .denied status hset hd hout
  · exact release_fate henv h
  · have hf : Waiting { s with failBody := true } :=
      ⟨h.entered, h.settled, h.streaming, h.denied, h.monitor, h.out⟩
    cases @deny_fate env _ hf (.status env.failStatus) with
    | held hw h₁ h₂ => exact .held hw h₁ h₂
    | released hset hd hout => exact .released hset hd hout
    | denied status hset hd hout => exact .denied status hset hd hout

/-! ### A chain of the upstream -/

theorem copy_shown (b : Buf) : b.copy.shown = b.shown := by
  unfold Buf.copy
  split_ifs with h
  · simp [Buf.shown, Buf.size, Buf.content, h.1]
  · rfl

theorem foldl_holdBuf (l : Chain) (s : St) : l.foldl holdBuf s =
    { s with
      last := s.last || l.any Buf.last
      hold := s.hold ++ l.map Buf.copy
      holdSize := s.holdSize + bytes l } := by
  induction l generalizing s with
  | nil => simp [bytes]
  | cons b l ih =>
    rw [List.foldl_cons, ih]
    simp [holdBuf, bytes, Bool.or_assoc, Nat.add_assoc]

/-- A chain that arrives while the response is held joins the hold, and then the inspection may go
on. -/
theorem bodyFilter_fate (hgate : c.hold = .gate) (henv : env.Passes) (h : Waiting s)
    (chain : Chain) (past placed : Option Wave) :
    Fate (chain.foldl holdBuf s) (bodyFilter c env s chain past placed) := by
  unfold bodyFilter
  rw [if_neg (by simp [h.streaming]), if_neg (by simp [h.entered, h.settled])]
  split_ifs with hnil
  · subst hnil
    exact placeIfReady_fate hgate henv h placed
  · have hheld : Waiting (chain.foldl holdBuf s) := by
      rw [foldl_holdBuf]
      exact ⟨h.entered, h.settled, h.streaming, h.denied, h.monitor, h.out⟩
    unfold holdChain
    simp only
    generalize chain.foldl holdBuf s = t at hheld ⊢
    have hover : ∀ x : Rc × St, Fate t x.2 →
        Fate t (if x.1 = .ok then placeIfReady c env x.2 placed else x.2) := by
      intro x hx
      split_ifs
      · refine hx.trans (fun hw => placeIfReady_fate hgate henv hw placed) fun hset => ?_
        unfold placeIfReady
        rw [if_neg (by simp [hset])]
      · exact hx
    by_cases hlim : (!t.capped && !t.settled && decide (c.bodyLimit < t.holdSize)) = true
    · rw [if_pos hlim]
      exact hover _ (overlimit_fate hgate henv hheld past)
    · rw [if_neg hlim]
      exact hover (.ok, t) (.held hheld rfl rfl)

/-- The buffers of a held chain are left empty. -/
theorem holdChain_drained (c : Conf) (env : Env) (s : St) (chain : Chain) (placed : Option Wave) :
    bytes (holdChain c env s chain placed).2 = 0 := by
  have hdrain : ∀ l : Chain, bytes (l.map Buf.drain) = 0 := by
    intro l
    induction l with
    | nil => rfl
    | cons b l ih =>
      have hb : b.drain.size = 0 := by
        unfold Buf.size Buf.content Buf.drain
        split_ifs <;> rfl
      simp only [bytes, List.map_cons, List.sum_cons, hb, Nat.zero_add]
      exact ih
  exact hdrain chain

/-! ### After the phase is settled -/

/-- What the chains of a run become once the phase is settled. -/
def forwarded (es : List Event) : List Out :=
  es.filterMap fun
    | .chain _ chain _ _ => some (.body chain)
    | .resume _ _ => none

theorem phaseRun_settled (hgate : c.hold = .gate) (w : Wave) :
    ∀ {s}, Settled s → Settled (phaseRun c env w s).2 ∧
      (phaseRun c env w s).2.denied = s.denied ∧ (phaseRun c env w s).2.out = s.out := by
  induction w with
  | answers rc => exact fun h => ⟨h, rfl, rfl⟩
  | pending => exact fun h => ⟨h, rfl, rfl⟩
  | bodyLater =>
    intro s h
    simp only [phaseRun]
    split_ifs <;> exact ⟨⟨h.entered, h.settled, h.streaming, h.monitor⟩, rfl, rfl⟩
  | bodyNow w ih =>
    intro s h
    simp only [phaseRun]
    split_ifs
    · obtain ⟨h₁, h₂, h₃⟩ := ih (s := s.placing) ⟨h.entered, h.settled, h.streaming, h.monitor⟩
      unfold resumed
      rw [outcome_of_settled hgate h₁.settled]
      simp only [ite_self]
      exact ⟨h₁, h₂, h₃⟩
    · exact ⟨⟨h.entered, h.settled, h.streaming, h.monitor⟩, rfl, rfl⟩

/-- A settled phase stays settled; chains are passed on as they come, and nothing else is. -/
theorem step_settled (hgate : c.hold = .gate) (h : Settled s) (e : Event) :
    Settled (step c s e) ∧ (step c s e).denied = s.denied ∧
      (step c s e).out = s.out ++ forwarded [e] := by
  cases e with
  | chain env chain past placed =>
    simp only [step, bodyFilter]
    rw [if_neg (by simp [h.streaming]), if_pos (by simp [h.settled])]
    exact ⟨⟨h.entered, h.settled, h.streaming, h.monitor⟩, rfl, rfl⟩
  | resume env w =>
    simp only [step, responseResume]
    rw [if_pos h.entered]
    obtain ⟨h₁, h₂, h₃⟩ := @phaseRun_settled _ env hgate w _ h
    unfold resumed
    rw [outcome_of_settled hgate h₁.settled]
    simp only [ite_self]
    exact ⟨h₁, h₂, by simp [h₃, forwarded]⟩

theorem run_settled (hgate : c.hold = .gate) (h : Settled s) (es : List Event) :
    Settled (runFrom (step c) s es) ∧ (runFrom (step c) s es).denied = s.denied ∧
      (runFrom (step c) s es).out = s.out ++ forwarded es := by
  induction es generalizing s with
  | nil => exact ⟨h, rfl, by simp [forwarded]⟩
  | cons e es ih =>
    obtain ⟨h₁, h₂, h₃⟩ := step_settled hgate h e
    obtain ⟨g₁, g₂, g₃⟩ := ih h₁
    rw [runFrom_cons]
    refine ⟨g₁, g₂.trans h₂, ?_⟩
    rw [g₃, h₃, List.append_assoc]
    simp only [forwarded, ← List.filterMap_append, List.cons_append, List.nil_append]

/-! ### The whole run -/

/-- The buffers the upstream has given so far. -/
def given (es : List Event) : Chain :=
  es.flatMap fun
    | .chain _ chain _ _ => chain
    | .resume _ _ => []

/-- The buffers passed to the next body filter. -/
def passed (out : List Out) : Chain :=
  out.flatMap fun
    | .body chain => chain
    | _ => []

theorem given_append (es fs : List Event) : given (es ++ fs) = given es ++ given fs :=
  List.flatMap_append

theorem passed_append (l m : List Out) : passed (l ++ m) = passed l ++ passed m :=
  List.flatMap_append

theorem passed_forwarded (es : List Event) : passed (forwarded es) = given es := by
  induction es with
  | nil => rfl
  | cons e es ih =>
    cases e with
    | chain env chain past placed =>
      have : forwarded (.chain env chain past placed :: es) = .body chain :: forwarded es := rfl
      rw [this]
      simp only [passed, given, List.flatMap_cons] at ih ⊢
      rw [ih]
    | resume env w => exact ih

theorem passed_released (hold : Chain) : passed (released hold) = hold := by
  unfold released
  split_ifs with h <;> simp [passed, h]

/-- What holds of a response of which the upstream has given `us` so far. -/
inductive Inv (us : Chain) (s : St) : Prop
  | held : Waiting s → s.hold.map Buf.shown = us.map Buf.shown → s.holdSize = bytes us → Inv us s
  | released : Settled s → s.denied = false → s.out.head? = some .header →
      (passed s.out).map Buf.shown = us.map Buf.shown → Inv us s
  | denied : Settled s → s.denied = true → Inv us s

theorem Fate.inv {us : Chain} (h : Fate s s') (hh : s.hold.map Buf.shown = us.map Buf.shown)
    (hsz : s.holdSize = bytes us) : Inv us s' := by
  cases h with
  | held hw h₁ h₂ => exact .held hw (by rw [h₁, hh]) (h₂.trans hsz)
  | released hset hd hout =>
    refine .released hset hd (by rw [hout]; rfl) ?_
    rw [hout, passed_released, hh]
  | denied status hset hd hout => exact .denied hset hd

theorem inv_step {us : Chain} (hgate : c.hold = .gate) {e : Event} (henv : e.env.Passes)
    (h : Inv us s) : Inv (us ++ given [e]) (step c s e) := by
  cases h with
  | held hw hh hsz =>
    cases e with
    | chain env chain past placed =>
      refine (bodyFilter_fate hgate henv hw chain past placed).inv ?_ ?_
      · rw [foldl_holdBuf]
        simp only [given, List.flatMap_cons, List.flatMap_nil, List.append_nil, List.map_append,
          List.map_map, hh]
        congr 1
        exact List.map_congr_left fun b _ => copy_shown b
      · rw [foldl_holdBuf]
        simp [hsz, given, bytes]
    | resume env w =>
      have hgiven : us ++ given [.resume env w] = us := by simp [given]
      rw [hgiven]
      simp only [step]
      rw [if_pos hw.entered]
      exact (resumed_fate hgate henv (phaseRun_fate hgate henv w hw)).inv hh hsz
  | released hset hd hhead hp =>
    obtain ⟨h₁, h₂, h₃⟩ := step_settled hgate hset e
    refine .released h₁ (h₂.trans hd) ?_ ?_
    · rw [h₃, List.head?_append, hhead]
      rfl
    · rw [h₃, passed_append, passed_forwarded, List.map_append, List.map_append, hp]
  | denied hset hd =>
    obtain ⟨h₁, h₂, -⟩ := step_settled hgate hset e
    exact .denied h₁ (h₂.trans hd)

theorem inv_run {us : Chain} (hgate : c.hold = .gate) (h : Inv us s) (es : List Event)
    (henv : ∀ e ∈ es, e.env.Passes) : Inv (us ++ given es) (runFrom (step c) s es) := by
  induction es generalizing us s with
  | nil => simpa [given] using h
  | cons e es ih =>
    have hnext := ih (inv_step hgate (henv e List.mem_cons_self) h)
      fun a ha => henv a (List.mem_cons_of_mem e ha)
    rw [List.append_assoc, ← given_append] at hnext
    exact hnext

/-! ### The limit -/

theorem outcome_capped (rc : Rc) : (outcome c env s rc).2.capped = s.capped := by
  have hrel : (release env s).2.capped = s.capped := by
    unfold release nextHeader nextBody
    simp only
    split_ifs <;> rfl
  have hden : ∀ st, (deny env s st).2.capped = s.capped := by
    intro st
    unfold deny
    split_ifs <;> rfl
  cases rc with
  | ok => exact hrel
  | declined => exact hrel
  | again => exact hden _
  | done =>
    simp only [outcome]
    cases c.hold with
    | gate => rfl
    | monitor =>
      unfold stream nextHeader
      simp only
      split_ifs <;> rfl
  | error => exact hden _
  | status n => exact hden _

theorem resumed_capped (x : Rc × St) : (resumed c env x).capped = x.2.capped := by
  unfold resumed
  split_ifs
  · rfl
  · rfl
  · exact outcome_capped x.1

theorem phaseRun_capped (w : Wave) : ∀ s, (phaseRun c env w s).2.capped = s.capped := by
  induction w with
  | answers rc => exact fun _ => rfl
  | pending => exact fun _ => rfl
  | bodyLater =>
    intro s
    simp only [phaseRun]
    split_ifs <;> rfl
  | bodyNow w ih =>
    intro s
    simp only [phaseRun]
    split_ifs
    · rw [resumed_capped, ih]
      rfl
    · rfl

theorem placeIfReady_capped (placed : Option Wave) :
    (placeIfReady c env s placed).capped = s.capped := by
  unfold placeIfReady
  split_ifs
  · cases placed with
    | none => rfl
    | some w => exact (resumed_capped _).trans (phaseRun_capped w _)
  · rfl

theorem placeIfReady_of_settled (h : s.settled = true) (placed : Option Wave) :
    placeIfReady c env s placed = s := if_neg (by simp [h])

theorem placeIfReady_none : (placeIfReady c env s none).settled = s.settled := by
  unfold placeIfReady
  split_ifs <;> rfl

/-- The policy of the limit has been applied; `quiet` says that the inspection gave no answer
meanwhile. -/
def LimitApplied (c : Conf) (quiet : Prop) (t : St) : Prop :=
  match c.limitPolicy with
  | .block => t.settled = true ∧ t.denied = true
  | .pass => t.settled = true ∧ t.denied = false
  | .trim => t.capped = true ∧ (quiet → t.settled = false)

/-- **The limit.** A chain that takes the held response over the limit settles the phase by the
policy; under `trim` the response is held on, and only an answer of the inspection settles it. -/
theorem bodyFilter_overlimit (henv : env.Passes) (h : Waiting s) (hcap : s.capped = false)
    {chain : Chain} (hne : chain ≠ []) (hlim : c.bodyLimit < s.holdSize + bytes chain)
    (past placed : Option Wave) :
    LimitApplied c (past = none ∧ placed = none) (bodyFilter c env s chain past placed) := by
  have hheld : Waiting (chain.foldl holdBuf s) ∧ (chain.foldl holdBuf s).capped = false ∧
      c.bodyLimit < (chain.foldl holdBuf s).holdSize := by
    rw [foldl_holdBuf]
    exact ⟨⟨h.entered, h.settled, h.streaming, h.denied, h.monitor, h.out⟩, hcap, hlim⟩
  have hfilter : bodyFilter c env s chain past placed =
      if (overlimit c env (chain.foldl holdBuf s) past).1 = .ok then
        placeIfReady c env (overlimit c env (chain.foldl holdBuf s) past).2 placed
      else (overlimit c env (chain.foldl holdBuf s) past).2 := by
    unfold bodyFilter
    rw [if_neg (by simp [h.streaming]), if_neg (by simp [h.entered, h.settled]), if_neg hne]
    have hcond : (!(chain.foldl holdBuf s).capped && !(chain.foldl holdBuf s).settled &&
        decide (c.bodyLimit < (chain.foldl holdBuf s).holdSize)) = true := by
      simp [hheld.1.settled, hheld.2.1, hheld.2.2]
    unfold holdChain
    simp only
    rw [if_pos hcond]
  rw [hfilter]
  obtain ⟨hw, hc, -⟩ := hheld
  generalize chain.foldl holdBuf s = t at hw hc ⊢
  -- Once the phase is settled there is nothing left to place.
  have hstay : ∀ x : Rc × St, x.2.settled = true →
      (if x.1 = .ok then placeIfReady c env x.2 placed else x.2) = x.2 := by
    intro x hx
    rw [placeIfReady_of_settled hx, ite_self]
  unfold overlimit LimitApplied
  cases c.limitPolicy with
  | block =>
    have hf : Waiting { t with failBody := true } :=
      ⟨hw.entered, hw.settled, hw.streaming, hw.denied, hw.monitor, hw.out⟩
    obtain ⟨hset, hd, -⟩ := @deny_settles env _ hf (.status env.failStatus)
    simp only
    rw [hstay _ hset.settled]
    exact ⟨hset.settled, hd⟩
  | pass =>
    obtain ⟨hset, hd, -⟩ := release_settles henv hw
    simp only
    rw [hstay (if (release env t).1 = .error then .error else .ok, (release env t).2) hset.settled]
    exact ⟨hset.settled, hd⟩
  | trim =>
    simp only [if_true]
    refine ⟨by rw [placeIfReady_capped, placeIfReady_capped], ?_⟩
    rintro ⟨rfl, rfl⟩
    rw [placeIfReady_none, placeIfReady_none]
    exact hw.settled

/-! ### A gated response -/

/-- The phase is settled after `fs` and was not before. -/
def SettlesAt (run : List Event → St) (fs : List Event) : Prop :=
  (run fs).settled = true ∧ ∀ gs e, fs = gs ++ [e] → (run gs).settled = false

theorem Inv.waiting {us : Chain} (h : Inv us s) (hs : s.settled = false) :
    Waiting s ∧ s.holdSize = bytes us := by
  cases h with
  | held hw _ hsz => exact ⟨hw, hsz⟩
  | released hset _ _ _ => rw [hset.settled] at hs; cases hs
  | denied hset _ => rw [hset.settled] at hs; cases hs

theorem Inv.settledState {us : Chain} (h : Inv us s) (hs : s.settled = true) : Settled s := by
  cases h with
  | held hw _ _ => rw [hw.settled] at hs; cases hs
  | released hset _ _ _ => exact hset
  | denied hset _ => exact hset

theorem Fate.denied_out (h : Fate s s') (hs : s'.settled = true) (hd : s'.denied = true) :
    ∃ status, s'.out = [.page status] := by
  cases h with
  | held hw _ _ => rw [hw.settled] at hs; cases hs
  | released _ hd' _ => rw [hd'] at hd; cases hd
  | denied status _ _ hout => exact ⟨status, hout⟩

/-- The start of a response leads to one of its fates. -/
theorem start_fate {q : Request} {w : Wave} (hgate : c.hold = .gate) (henv : env.Passes)
    (hon : c.enable = true ∧ c.inspected = true) (hbypass : responseBypass q = false) :
    Fate { blank with entered := true } (start c q env w) := by
  have hw : Waiting { blank with entered := true } := ⟨rfl, rfl, rfl, rfl, rfl, rfl⟩
  have hstart : start c q env w = (outcome c env (phaseRun c env w { blank with entered := true }).2
      (phaseRun c env w { blank with entered := true }).1).2 := by
    unfold start headerFilter
    rw [if_neg (by simp [blank]), if_neg (by simp [hon]), if_neg (by simp [hbypass])]
  rw [hstart]
  exact (phaseRun_fate hgate henv w hw).trans (fun h => outcome_fate hgate henv h _)
    fun hset => outcome_of_settled hgate hset _

/-- One event leads a held response to one of its fates. -/
theorem step_fate (hgate : c.hold = .gate) {e : Event} (henv : e.env.Passes) (h : Waiting s) :
    ∃ t, Fate t (step c s e) := by
  cases e with
  | chain env chain past placed => exact ⟨_, bodyFilter_fate hgate henv h chain past placed⟩
  | resume env w =>
    refine ⟨s, ?_⟩
    simp only [step]
    rw [if_pos h.entered]
    exact resumed_fate hgate henv (phaseRun_fate hgate henv w h)

/-- **A gated response.** In every run of a response that is inspected in hold mode gate, with next
filters that take the header: nothing is passed on before the phase settles; once it has settled it
stays so, and only the chains that still come are passed on; a released response is passed on
exactly as the upstream gave it, the header first; of a denied one nothing is that was held; and a
chain that takes the hold over the limit has the policy applied. -/
theorem gated_response (c : Conf) (q : Request) (env : Env) (w : Wave) (es : List Event)
    (hgate : c.hold = .gate) (hon : c.enable = true ∧ c.inspected = true)
    (hbypass : responseBypass q = false) (henv : env.Passes)
    (henvs : ∀ e ∈ es, e.env.Passes) :
    let run := runFrom (step c) (start c q env w)
    ((run es).settled = false → (run es).out = []) ∧
    (∀ fs gs, es = fs ++ gs → (run fs).settled = true →
      (run es).settled = true ∧ (run es).denied = (run fs).denied ∧
        (run es).out = (run fs).out ++ forwarded gs) ∧
    ((run es).settled = true → (run es).denied = false →
      (run es).out.head? = some .header ∧
        (passed (run es).out).map Buf.shown = (given es).map Buf.shown) ∧
    (∀ fs gs, es = fs ++ gs → SettlesAt run fs → (run fs).denied = true →
      ∃ status, (run es).out = .page status :: forwarded gs) ∧
    (∀ fs env' chain past placed gs, es = fs ++ .chain env' chain past placed :: gs →
      (run fs).settled = false → (run fs).capped = false → chain ≠ [] →
      c.bodyLimit < bytes (given fs ++ chain) →
      LimitApplied c (past = none ∧ placed = none)
        (run (fs ++ [.chain env' chain past placed]))) := by
  intro run
  have hstart := start_fate (c := c) (q := q) (w := w) hgate henv hon hbypass
  -- The invariant holds after every prefix of the events.
  have hinv : ∀ fs gs, es = fs ++ gs → Inv (given fs) (run fs) := by
    intro fs gs hes
    have := inv_run hgate (@Fate.inv _ _ [] hstart rfl rfl) fs
      fun e he => henvs e (by rw [hes]; exact List.mem_append_left gs he)
    simpa using this
  have hafter : ∀ fs gs, es = fs ++ gs → (run fs).settled = true →
      (run es).settled = true ∧ (run es).denied = (run fs).denied ∧
        (run es).out = (run fs).out ++ forwarded gs := by
    intro fs gs hes hset
    obtain ⟨h₁, h₂, h₃⟩ := run_settled hgate ((hinv fs gs hes).settledState hset) gs
    subst hes
    simp only [run]
    rw [runFrom_append]
    exact ⟨h₁.settled, h₂, h₃⟩
  refine ⟨fun hset => ((hinv es [] (by simp)).waiting hset).1.out, hafter, ?_, ?_, ?_⟩
  · intro hset hd
    cases hinv es [] (by simp) with
    | held hw _ _ => rw [hw.settled] at hset; cases hset
    | released _ _ hhead hp => exact ⟨hhead, hp⟩
    | denied _ hd' => rw [hd'] at hd; cases hd
  · intro fs gs hes hat hd
    -- Denied by the inspection of the header, or by the step that settled the response.
    obtain ⟨status, hout⟩ : ∃ status, (run fs).out = [.page status] := by
      rcases List.eq_nil_or_concat fs with rfl | ⟨fs', e, rfl⟩
      · exact hstart.denied_out hat.1 hd
      · rw [List.concat_eq_append] at hat hd hes ⊢
        have hw := ((hinv fs' (e :: gs) (by rw [hes]; simp)).waiting (hat.2 fs' e rfl)).1
        obtain ⟨t, hfate⟩ := step_fate hgate
          (henvs e (by rw [hes]; simp)) hw
        have hrun : run (fs' ++ [e]) = step c (run fs') e := runFrom_append _ _ _ _
        have hset := hat.1
        rw [hrun] at hset hd ⊢
        exact hfate.denied_out hset hd
    refine ⟨status, ?_⟩
    rw [(hafter fs gs hes hat.1).2.2, hout]
    rfl
  · intro fs env' chain past placed gs hes hset hcap hne hlim
    obtain ⟨hw, hsz⟩ := (hinv fs _ hes).waiting hset
    have hrun : run (fs ++ [.chain env' chain past placed]) =
        bodyFilter c env' (run fs) chain past placed := runFrom_append _ _ _ _
    rw [hrun]
    refine bodyFilter_overlimit (henvs (.chain env' chain past placed) (by rw [hes]; simp)) hw hcap
      hne ?_ past placed
    rw [hsz]
    simpa [bytes] using hlim

/-- Filters that take everything. -/
def takes : Env := ⟨.ok, false, .ok, .error, 403⟩

/-- A gated location with a limit of a hundred bytes. -/
def hundred : Conf := ⟨true, true, .gate, 100, .block, .pass, true, some 10⟩

/-- A `GET` answered with 200. -/
def plain : Request := ⟨true, false, false, 200, false⟩

/-- A chain, the verdict, and the last chain. -/
def twoChains : List Event :=
  [.chain takes [⟨true, ascii "he", [], false⟩, ⟨false, [], ascii "llo", false⟩] none none,
    .resume takes (.answers .ok),
    .chain takes [⟨true, ascii "!", [], true⟩] none none]

/-- The response goes out as it came in. -/
theorem gated_response_released :
    (runFrom (step hundred) (start hundred plain takes .pending) twoChains).settled = true ∧
      (passed (runFrom (step hundred) (start hundred plain takes .pending) twoChains).out).map
        Buf.shown = (given twoChains).map Buf.shown :=
  ⟨by decide +kernel,
    ((gated_response hundred plain takes .pending twoChains rfl ⟨rfl, rfl⟩ (by decide +kernel)
      ⟨rfl, rfl⟩ (by simp [twoChains, Event.env, takes]; exact ⟨rfl, rfl⟩)).2.2.1
      (by decide +kernel) (by decide +kernel)).2⟩

end Response
