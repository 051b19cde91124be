import PlacitumNode.Desired.Apply

/-!
# The calls of `Apply` and its swaps

* `Op.spots`, `exec_frame`: a call changes nothing but the names it is about;
* `stage_frame`, `stage_ok`: staging leaves the live files alone;
* `swap_spec`, `swap_dir`, `swap_conf`: a swap fails only when one of its calls does, and is undone.
-/

namespace Desired

open Octets

variable {f : Fault} {w : At} {op : Op} {data : Bytes} {d : Disk} {s : Spot}

/-! ### What a call changes -/

/-- The names that a call is about. -/
def Op.spots : Op → List Spot
  | .removeAll s => [s]
  | .remove s => [s]
  | .mkdirAll s => [s]
  | .write s => [s]
  | .writeIn dir name => if plainName name then [dir] else [dir, .outside name]
  | .rename src dst => [src, dst]
  | .renameFrom dir _ dst => [dir, dst]
  | .test => []
  | .reload => []

/-- A move touches the name it moves to. -/
theorem moveTo_frame {n : Node} {dst : Spot} {d' : Disk} (h : moveTo d n dst = some d')
    (hs : s ≠ dst) : d' s = d s := by
  unfold moveTo at h
  split at h
  · rw [← Option.some.inj h]
    exact Function.update_of_ne hs _ _
  · split at h
    · cases h
    · rw [← Option.some.inj h]
      exact Function.update_of_ne hs _ _

theorem writeEntry_frame {dir : Spot} {name : Bytes} {d' : Disk}
    (h : writeEntry d dir name data = some d') (hs : s ∉ (Op.writeIn dir name).spots) :
    d' s = d s := by
  unfold writeEntry at h
  rw [Op.spots] at hs
  split at h
  · next hn =>
    rw [if_pos hn, List.mem_singleton] at hs
    split at h
    · split at h
      · cases h
      · rw [← Option.some.inj h]
        exact Function.update_of_ne hs _ _
    · cases h
  · next hn =>
    rw [if_neg hn] at hs
    rw [← Option.some.inj h]
    exact Function.update_of_ne (fun hne => hs (by rw [hne]; simp)) _ _

theorem perform_frame {d' : Disk} (h : perform d data op = some d') (hs : s ∉ op.spots) :
    d' s = d s := by
  cases op with
  | removeAll s' =>
    rw [← Option.some.inj h]
    exact Function.update_of_ne (fun hne => hs (by rw [hne]; exact List.mem_singleton_self _)) _ _
  | remove s' =>
    have hne : s ≠ s' := fun hne => hs (by rw [hne]; exact List.mem_singleton_self _)
    simp only [perform] at h
    split at h
    · cases h
    · cases h
    · rw [← Option.some.inj h]
      exact Function.update_of_ne hne _ _
  | mkdirAll s' =>
    have hne : s ≠ s' := fun hne => hs (by rw [hne]; exact List.mem_singleton_self _)
    simp only [perform] at h
    split at h
    · rw [← Option.some.inj h]
      exact Function.update_of_ne hne _ _
    · split at h
      · rw [Option.some.inj h]
      · cases h
  | write s' =>
    have hne : s ≠ s' := fun hne => hs (by rw [hne]; exact List.mem_singleton_self _)
    simp only [perform] at h
    split at h
    · cases h
    · rw [← Option.some.inj h]
      exact Function.update_of_ne hne _ _
  | writeIn dir name => exact writeEntry_frame h hs
  | rename src dst =>
    simp only [Op.spots, List.mem_cons, List.not_mem_nil, or_false, not_or] at hs
    simp only [perform] at h
    split at h
    · cases h
    · obtain ⟨d₁, hd₁, rfl⟩ := Option.map_eq_some_iff.1 h
      exact (Function.update_of_ne hs.1 _ _).trans (moveTo_frame hd₁ hs.2)
  | renameFrom dir name dst =>
    simp only [Op.spots, List.mem_cons, List.not_mem_nil, or_false, not_or] at hs
    simp only [perform] at h
    split at h
    · split at h
      · cases h
      · obtain ⟨d₁, hd₁, rfl⟩ := Option.map_eq_some_iff.1 h
        exact (Function.update_of_ne hs.1 _ _).trans (moveTo_frame hd₁ hs.2)
    · cases h
  | test => rw [Option.some.inj h]
  | reload => rw [Option.some.inj h]

theorem spoil_frame {damage : Option Node} (hs : s ∉ op.spots) : spoil d damage op s = d s := by
  cases op with
  | removeAll s' =>
    exact Function.update_of_ne (fun hne => hs (by rw [hne]; exact List.mem_singleton_self _)) _ _
  | write s' =>
    exact Function.update_of_ne (fun hne => hs (by rw [hne]; exact List.mem_singleton_self _)) _ _
  | writeIn dir name =>
    refine Function.update_of_ne (fun hne => hs ?_) _ _
    rw [hne, Op.spots]
    split <;> simp
  | _ => rfl

/-- **A call changes nothing but the names it is about.** -/
theorem exec_frame (hs : s ∉ op.spots) : (exec f w op data d).1 s = d s := by
  unfold exec
  split
  · exact spoil_frame hs
  · split
    · next hp => exact perform_frame hp hs
    · rfl

theorem run_frame (hs : s ∉ op.spots) : run f w op d s = d s := exec_frame hs

/-! ### Staging -/

def staged : List Spot := [.staging, .stagingPages, .confStaging]

/-- Writing a list of files touches their directory. -/
theorem writeAll_frame {dir : Spot} {content : Bytes → Option Bytes} {ns : List Bytes}
    (hns : ∀ n ∈ ns, plainName n = true) (hs : s ≠ dir) :
    (writeAll f dir content ns d).1 s = d s := by
  induction ns generalizing d with
  | nil => rfl
  | cons n ns ih =>
    have hop : s ∉ (Op.writeIn dir n).spots := by
      rw [Op.spots, if_pos (hns n List.mem_cons_self), List.mem_singleton]
      exact hs
    have ih' := fun d => @ih d fun m hm => hns m (List.mem_cons_of_mem _ hm)
    rw [writeAll]
    split
    · rfl
    · simp only
      split
      · exact (ih' _).trans (exec_frame hop)
      · exact exec_frame hop

/-- What neither the step, its undoing nor the rest touches stays as it was. -/
theorem andThen_frame {r : Disk × Bool} {undo : Disk → Disk} {next : Disk → Disk × Bool} {n : Option Node}
    (hr : r.1 s = n) (hundo : ∀ d : Disk, d s = n → undo d s = n)
    (hnext : ∀ d : Disk, d s = n → (next d).1 s = n) : (andThen r undo next).1 s = n := by
  unfold andThen
  split
  · exact hnext _ hr
  · exact hundo _ hr

/-- The clean-up after a failure removes staged names alone. -/
theorem cleanStaging_frame (hs : s ∉ staged) : cleanStaging f d s = d s := by
  simp only [staged, List.mem_cons, List.not_mem_nil, or_false, not_or] at hs
  have h1 : s ∉ (Op.removeAll .stagingPages).spots := by simpa [Op.spots] using hs.2.1
  have h2 : s ∉ (Op.removeAll .staging).spots := by simpa [Op.spots] using hs.1
  rw [cleanStaging, run_frame h1, run_frame h2]

theorem cleanAll_frame (hs : s ∉ staged) : cleanAll f d s = d s := by
  have h := hs
  simp only [staged, List.mem_cons, List.not_mem_nil, or_false, not_or] at h
  have h1 : s ∉ (Op.removeAll .confStaging).spots := by simpa [Op.spots] using h.2.2
  rw [cleanAll, run_frame h1, cleanStaging_frame hs]

section Staging

variable {e : Env} {p : Pack} {o : Orders p} {blobs : Blobs} {text : Bytes}

/-- **Staging** changes the staged names alone, so the live tree is served on. -/
theorem stage_frame (hw : ∀ n ∈ o.write, plainName n = true) (hp : ∀ n ∈ o.pages, plainName n = true)
    (hs : s ∉ staged) : (stage e p o blobs text f d).1 s = d s := by
  have h := hs
  simp only [staged, List.mem_cons, List.not_mem_nil, or_false, not_or] at h
  have hclean : ∀ d' : Disk, d' s = d s → cleanStaging f d' s = d s := fun d' hd =>
    (cleanStaging_frame hs).trans hd
  have hcleanAll : ∀ d' : Disk, d' s = d s → cleanAll f d' s = d s := fun d' hd =>
    (cleanAll_frame hs).trans hd
  have hconf : s ∉ (Op.writeIn .confStaging confName).spots := by
    rw [Op.spots, if_pos (by decide), List.mem_singleton]
    exact h.2.2
  unfold stage
  refine andThen_frame (exec_frame (by simpa [Op.spots] using h.1)) (fun _ hd => hd) fun d₁ h₁ => ?_
  refine andThen_frame ((exec_frame (by simpa [Op.spots] using h.1)).trans h₁) (fun _ hd => hd)
    fun d₂ h₂ => ?_
  refine andThen_frame ((writeAll_frame hw h.1).trans h₂) hclean fun d₃ h₃ => ?_
  refine andThen_frame ((exec_frame (by simpa [Op.spots] using h.2.1)).trans h₃) hclean
    fun d₄ h₄ => ?_
  refine andThen_frame ((exec_frame (by simpa [Op.spots] using h.2.1)).trans h₄) hclean
    fun d₅ h₅ => ?_
  refine andThen_frame ((writeAll_frame hp h.2.1).trans h₅) hclean fun d₆ h₆ => ?_
  refine andThen_frame ((exec_frame (by simpa [Op.spots] using h.2.2)).trans h₆) hclean
    fun d₇ h₇ => ?_
  refine andThen_frame ((exec_frame hconf).trans h₇) hcleanAll fun d₈ h₈ => ?_
  exact andThen_frame ((exec_frame (by simp [Op.spots])).trans h₈) hcleanAll fun _ h₉ => h₉

/-- A call that went well was performed. -/
theorem exec_true (h : (exec f w op data d).2 = true) :
    perform d data op = some (exec f w op data d).1 := by
  unfold exec at h ⊢
  split at h
  · cases h
  · next hf =>
    rw [if_neg hf]
    split at h
    · next hp => rw [hp]
    · cases h

/-- A sequence of calls went well when each of them did. -/
theorem andThen_true {r : Disk × Bool} {undo : Disk → Disk} {next : Disk → Disk × Bool}
    (h : (andThen r undo next).2 = true) : r.2 = true ∧ andThen r undo next = next r.1 := by
  unfold andThen at h ⊢
  split at h
  · next hr =>
    rw [if_pos hr]
    exact ⟨hr, rfl⟩
  · cases h

/-- The files of a directory that was written. -/
def written (content : Bytes → Option Bytes) (ns : List Bytes) : List (Bytes × Node) :=
  ns.map fun n => (n, .file ((content n).getD []))

/-- When all files were written, the directory holds each of them and no other. -/
theorem writeAll_ok {dir : Spot} {content : Bytes → Option Bytes} {ns : List Bytes}
    {es : List (Bytes × Node)} (hns : ∀ n ∈ ns, plainName n = true) (hnd : ns.Nodup)
    (hd : d dir = some (.dir es)) (hes : ∀ x ∈ es, x.1 ∉ ns)
    (h : (writeAll f dir content ns d).2 = true) :
    (writeAll f dir content ns d).1 dir = some (.dir (es ++ written content ns)) ∧
      ∀ n ∈ ns, (content n).isSome = true := by
  induction ns generalizing d es with
  | nil =>
    refine ⟨?_, by rintro n ⟨⟩⟩
    rw [writeAll, written, List.map_nil, List.append_nil]
    exact hd
  | cons n ns ih =>
    obtain ⟨hn, hnd⟩ := List.nodup_cons.1 hnd
    rw [writeAll] at h ⊢
    split at h
    · cases h
    · next c hc =>
      simp only at h ⊢
      split at h
      · next hok =>
        rw [if_pos hok]
        have hp : writeEntry d dir n c = some (exec f .forward (.writeIn dir n) c d).1 := exec_true hok
        have hfresh : ∀ x ∈ es, x.1 ≠ n := fun x hx hne =>
          hes x hx (by rw [hne]; exact List.mem_cons_self)
        have hlook : (Node.dir es).lookup n = none := by
          rw [Node.lookup, Option.map_eq_none_iff, List.find?_eq_none]
          intro x hx
          simpa using hfresh x hx
        have hfilter : (es.filter fun x => x.1 ≠ n) = es := by
          rw [List.filter_eq_self]
          intro x hx
          simpa using hfresh x hx
        rw [writeEntry, if_pos (hns n List.mem_cons_self), hd] at hp
        simp only [hlook, hfilter] at hp
        have hdir : (exec f .forward (.writeIn dir n) c d).1 dir =
            some (.dir (es ++ [(n, .file c)])) := by
          rw [← Option.some.inj hp]
          exact Function.update_self _ _ _
        have hes' : ∀ x ∈ es ++ [(n, Node.file c)], x.1 ∉ ns := by
          intro x hx
          rcases List.mem_append.1 hx with hx | hx
          · exact fun hm => hes x hx (List.mem_cons_of_mem _ hm)
          · rw [List.mem_singleton.1 hx]
            exact hn
        obtain ⟨hres, hall⟩ := ih (fun m hm => hns m (List.mem_cons_of_mem _ hm)) hnd hdir hes' h
        refine ⟨?_, fun m hm => ?_⟩
        · rw [hres, written, written, List.map_cons, hc, Option.getD_some, List.append_assoc]
          rfl
        · rcases List.mem_cons.1 hm with rfl | hm
          · rw [hc]
            rfl
          · exact hall m hm
      · next hok => exact absurd h hok

theorem exec_removeAll (h : (exec f w (.removeAll s) data d).2 = true) :
    (exec f w (.removeAll s) data d).1 s = none := by
  rw [← Option.some.inj (exec_true h)]
  exact Function.update_self _ _ _

theorem exec_mkdirAll (h : (exec f w (.mkdirAll s) data d).2 = true) (hd : d s = none) :
    (exec f w (.mkdirAll s) data d).1 s = some (.dir []) := by
  have hp := exec_true h
  rw [perform, hd] at hp
  rw [← Option.some.inj hp]
  exact Function.update_self _ _ _

/-- **What was staged**: the store, the pages and the configuration. -/
structure Staged (e : Env) (p : Pack) (o : Orders p) (blobs : Blobs) (d : Disk) : Prop where
  store : d .staging = some (.dir (written (plain e p blobs) o.write))
  pages : d .stagingPages = some (.dir (written (pageBody p blobs) o.pages))
  pageBodies : ∀ n ∈ o.pages, (pageBody p blobs n).isSome = true
  conf : ∃ es c, d .confStaging = some (.dir es) ∧ (Node.dir es).lookup confName = some (.file c)

theorem exec_mkdirAll_dir (h : (exec f w (.mkdirAll s) data d).2 = true) :
    ∃ es, (exec f w (.mkdirAll s) data d).1 s = some (.dir es) := by
  have hp := exec_true h
  simp only [perform] at hp
  split at hp
  · rw [← Option.some.inj hp]
    exact ⟨[], Function.update_self _ _ _⟩
  · next n hn =>
    split at hp
    · next hdir =>
      rw [← Option.some.inj hp, hn]
      cases n with
      | file c => cases hdir
      | dir es => exact ⟨es, rfl⟩
    · cases hp

/-- The entry is a file after it was written. -/
theorem exec_writeIn {dir : Spot} {name : Bytes} {es : List (Bytes × Node)}
    (h : (exec f w (.writeIn dir name) data d).2 = true) (hn : plainName name = true)
    (hd : d dir = some (.dir es)) : ∃ es', (exec f w (.writeIn dir name) data d).1 dir =
      some (.dir es') ∧ (Node.dir es').lookup name = some (.file data) := by
  have hp : writeEntry d dir name data = some (exec f w (.writeIn dir name) data d).1 := exec_true h
  rw [writeEntry, if_pos hn, hd] at hp
  simp only at hp
  split at hp
  · cases hp
  · rw [← Option.some.inj hp]
    refine ⟨_, Function.update_self _ _ _, ?_⟩
    rw [Node.lookup, List.find?_append, List.find?_eq_none.2]
    · simp
    · intro x hx
      have := (List.mem_filter.1 hx).2
      simpa using this

/-- **When staging went well**, everything the pack names was staged with its bytes. -/
theorem stage_ok (hw : ∀ n ∈ o.write, plainName n = true) (hp : ∀ n ∈ o.pages, plainName n = true)
    (hwn : o.write.Nodup) (hpn : o.pages.Nodup)
    (h : (stage e p o blobs text f d).2 = true) :
    Staged e p o blobs (stage e p o blobs text f d).1 := by
  unfold stage at h ⊢
  obtain ⟨h₁, e₁⟩ := andThen_true h
  rw [e₁] at h ⊢
  have s₁ := exec_removeAll h₁
  obtain ⟨h₂, e₂⟩ := andThen_true h
  rw [e₂] at h ⊢
  have s₂ := exec_mkdirAll h₂ s₁
  obtain ⟨h₃, e₃⟩ := andThen_true h
  rw [e₃] at h ⊢
  have s₃ := (writeAll_ok hw hwn s₂ (by rintro x ⟨⟩) h₃).1
  obtain ⟨h₄, e₄⟩ := andThen_true h
  rw [e₄] at h ⊢
  have s₄ := exec_removeAll h₄
  have f₄ : (exec f .forward (.removeAll .stagingPages) [] _).1 .staging = _ :=
    (exec_frame (by decide)).trans s₃
  obtain ⟨h₅, e₅⟩ := andThen_true h
  rw [e₅] at h ⊢
  have s₅ := exec_mkdirAll h₅ s₄
  have f₅ : (exec f .forward (.mkdirAll .stagingPages) [] _).1 .staging = _ :=
    (exec_frame (by decide)).trans f₄
  obtain ⟨h₆, e₆⟩ := andThen_true h
  rw [e₆] at h ⊢
  obtain ⟨s₆, hbodies⟩ := writeAll_ok hp hpn s₅ (by rintro x ⟨⟩) h₆
  have f₆ : (writeAll f .stagingPages (pageBody p blobs) o.pages _).1 .staging = _ :=
    (writeAll_frame hp (by decide)).trans f₅
  obtain ⟨h₇, e₇⟩ := andThen_true h
  rw [e₇] at h ⊢
  obtain ⟨es, s₇⟩ := exec_mkdirAll_dir h₇
  have f₇ : (exec f .forward (.mkdirAll .confStaging) [] _).1 .staging = _ :=
    (exec_frame (by decide)).trans f₆
  have g₇ : (exec f .forward (.mkdirAll .confStaging) [] _).1 .stagingPages = _ :=
    (exec_frame (by decide)).trans s₆
  obtain ⟨h₈, e₈⟩ := andThen_true h
  rw [e₈] at h ⊢
  obtain ⟨es', s₈, hlook⟩ := exec_writeIn h₈ (by decide) s₇
  have f₈ : (exec f .forward (.writeIn .confStaging confName)
      (substitute text o.staged e.stagingStore e.stagingPages) _).1 .staging = _ :=
    (exec_frame (by decide)).trans f₇
  have g₈ : (exec f .forward (.writeIn .confStaging confName)
      (substitute text o.staged e.stagingStore e.stagingPages) _).1 .stagingPages = _ :=
    (exec_frame (by decide)).trans g₇
  obtain ⟨-, e₉⟩ := andThen_true h
  rw [e₉]
  refine ⟨?_, ?_, hbodies, es', _, ?_, hlook⟩
  · exact (exec_frame (by decide)).trans f₈
  · exact (exec_frame (by decide)).trans g₈
  · exact (exec_frame (by decide)).trans s₈

end Staging

/-! ### Swapping -/

theorem exec_of_ne (hf : f.step ≠ some (w, op)) :
    exec f w op data d = ((perform d data op).getD d, (perform d data op).isSome) := by
  unfold exec
  rw [if_neg hf]
  cases perform d data op <;> rfl

theorem run_of_ne (hf : f.step ≠ some (w, op)) : run f w op d = (perform d [] op).getD d := by
  rw [run, exec_of_ne hf]

/-- A move to a name where there is nothing, or nothing to move. -/
theorem run_rename_free {src dst : Spot} (hf : f.step ≠ some (w, .rename src dst)) (hne : src ≠ dst)
    (hd : d dst = none) : run f w (.rename src dst) d dst = d src ∧
      (run f w (.rename src dst) d src = none) := by
  rw [run_of_ne hf, perform]
  cases hs : d src with
  | none => exact ⟨hd, hs⟩
  | some n =>
    simp only [moveTo, hd, Option.map_some, Option.getD_some]
    exact ⟨by rw [Function.update_of_ne hne.symm, Function.update_self], Function.update_self _ _ _⟩

/-- A directory is moved only to a name where there is nothing. -/
theorem exec_rename_dir {src dst : Spot} {es : List (Bytes × Node)}
    (hf : f.step ≠ some (w, .rename src dst)) (hne : src ≠ dst) (hs : d src = some (.dir es)) :
    ((exec f w (.rename src dst) [] d).2 = true ↔ d dst = none) ∧
      (d dst = none → (exec f w (.rename src dst) [] d).1 dst = some (.dir es)) ∧
      (d dst ≠ none → (exec f w (.rename src dst) [] d).1 = d) := by
  rw [exec_of_ne hf, perform, hs]
  cases hd : d dst with
  | none =>
    simp only [moveTo, hd, Option.map_some, Option.getD_some, Option.isSome_some]
    refine ⟨by simp, fun _ => ?_, fun h => absurd rfl h⟩
    rw [Function.update_of_ne hne.symm, Function.update_self]
  | some old => simp [moveTo, hd, Node.isDir]

theorem perform_rename_none {src dst : Spot} (h : d src = none) :
    perform d data (.rename src dst) = none := by
  rw [perform, h]

/-- A move that was not made cannot be made back. -/
theorem rename_back {src dst : Spot} (hs : (perform d data (.rename src dst)).getD d src ≠ none) :
    (perform d data (.rename src dst)).getD d = d ∧ perform d data (.rename dst src) = none := by
  simp only [perform] at hs ⊢
  cases hsrc : d src with
  | none =>
    rw [hsrc] at hs
    exact absurd hsrc hs
  | some n =>
    rw [hsrc] at hs
    simp only at hs ⊢
    cases hdst : d dst with
    | none =>
      simp only [moveTo, hdst, Option.map_some, Option.getD_some, Function.update_self] at hs
      exact absurd rfl hs
    | some m =>
      by_cases hdir : (m.isDir || n.isDir) = true
      · simp only [moveTo, hdst, hsrc, if_pos hdir, Option.map_none, Option.getD_none]
        rw [Bool.or_comm] at hdir
        rw [if_pos hdir]
        exact ⟨trivial, rfl⟩
      · simp only [moveTo, hdst, if_neg hdir, Option.map_some, Option.getD_some,
          Function.update_self] at hs
        exact absurd rfl hs

/-- The call is one of the three of a swap. -/
def Fault.Among (f : Fault) (clear keep put : Op) : Prop :=
  f.step = some (.forward, clear) ∨ f.step = some (.forward, keep) ∨ f.step = some (.forward, put)

/-- **A swap** fails only when one of its calls does, and is undone; when it went well, the previous
one is kept. -/
theorem swap_spec {L P S : Spot} {clear put : Op} {Q : Option Node → Prop} (hLP : L ≠ P)
    (hLS : L ≠ S) (hPS : P ≠ S) (hclear : clear.spots = [P])
    (hclean : f.step ≠ some (.forward, clear) → run f .forward clear d P = none)
    (hputP : P ∉ put.spots) (hne : put ≠ .rename L P ∧ put ≠ clear ∧ clear ≠ .rename L P)
    (hputs : ∀ d', spoil d' f.damage put = d')
    (hput : ∀ d', d' S = d S → f.step ≠ some (.forward, put) →
      ((exec f .forward put [] d').2 = true → Q ((exec f .forward put [] d').1 L)) ∧
      ((exec f .forward put [] d').2 = false →
        d' L ≠ none ∧ (exec f .forward put [] d').1 = d')) :
    let r := swap f clear (.rename L P) put d
    (r.2 = true → Q (r.1 L) ∧
      (¬ f.Among clear (.rename L P) put → r.1 P = d L)) ∧
    (r.2 = false → f.Among clear (.rename L P) put ∧ run f .undo (.rename P L) r.1 L = d L) := by
  intro r
  set d₁ := run f .forward clear d with hd₁
  set d₂ := run f .forward (.rename L P) d₁ with hd₂
  have hr : r = exec f .forward put [] d₂ := rfl
  have hL₁ : d₁ L = d L := run_frame (by rw [hclear]; simpa using hLP)
  have hS₂ : d₂ S = d S := by
    have h1 : d₂ S = d₁ S := run_frame (by simp [Op.spots, hLS.symm, hPS.symm])
    have h2 : d₁ S = d S := run_frame (by rw [hclear]; simpa using hPS.symm)
    rw [h1, h2]
  have hundo : ∀ d' : Disk, f.Among clear (.rename L P) put →
      run f .undo (.rename P L) d' = (perform d' [] (.rename P L)).getD d' := by
    intro d' hf
    refine run_of_ne fun hu => ?_
    rcases hf with h | h | h <;> rw [h] at hu <;> simp at hu
  by_cases hfput : f.step = some (.forward, put)
  · -- the last call fails: what was moved away is moved back
    have h1 := hclean (by rw [hfput]; simpa using hne.2.1)
    obtain ⟨hP₂, hL₂⟩ := run_rename_free (f := f) (w := .forward) (by rw [hfput]; simpa using hne.1)
      hLP h1
    have hr' : r = (d₂, false) := by rw [hr, exec, if_pos hfput, hputs]
    rw [hr']
    refine ⟨fun h => absurd h (by simp), fun _ => ⟨.inr (.inr hfput), ?_⟩⟩
    have hback := (run_rename_free (f := f) (w := .undo) (by rw [hfput]; simp) hLP.symm hL₂).1
    exact hback.trans (hP₂.trans hL₁)
  · obtain ⟨hyes, hno⟩ := hput d₂ hS₂ hfput
    rw [← hr] at hyes hno
    refine ⟨fun h => ⟨hyes h, fun hf => ?_⟩, fun h => ?_⟩
    · have hP₂ := (run_rename_free (f := f) (w := .forward) (fun h' => hf (.inr (.inl h'))) hLP
        (hclean fun h' => hf (.inl h'))).1
      have hframe : r.1 P = d₂ P := by
        rw [hr]
        exact exec_frame hputP
      exact hframe.trans (hP₂.trans hL₁)
    · obtain ⟨hL₂, hsame₂⟩ := hno h
      rw [hsame₂]
      by_cases hkeep : f.step = some (.forward, .rename L P)
      · have hsame : d₂ = d₁ := by
          rw [hd₂, run, exec, if_pos hkeep]
          rfl
        refine ⟨.inr (.inl hkeep), ?_⟩
        rw [hundo _ (.inr (.inl hkeep)), hsame,
          perform_rename_none (hclean (by rw [hkeep]; simpa using hne.2.2.symm))]
        exact hL₁
      · have hd₂' : d₂ = (perform d₁ [] (.rename L P)).getD d₁ := run_of_ne hkeep
        have hfclear : f.step = some (.forward, clear) := by
          by_contra hc
          exact hL₂ (run_rename_free (f := f) (w := .forward) hkeep hLP (hclean hc)).2
        rw [hd₂'] at hL₂
        obtain ⟨hsame, hback⟩ := rename_back hL₂
        refine ⟨.inl hfclear, ?_⟩
        rw [hundo _ (.inl hfclear), hd₂', hsame, hback]
        exact hL₁

/-- The swap of a directory. -/
theorem swap_dir {L P S : Spot} {es : List (Bytes × Node)} (hLP : L ≠ P) (hLS : L ≠ S) (hPS : P ≠ S)
    (hd : d S = some (.dir es)) :
    let r := swap f (.removeAll P) (.rename L P) (.rename S L) d
    (r.2 = true → r.1 L = some (.dir es) ∧
      (¬ f.Among (.removeAll P) (.rename L P) (.rename S L) → r.1 P = d L)) ∧
    (r.2 = false → f.Among (.removeAll P) (.rename L P) (.rename S L) ∧
      run f .undo (.rename P L) r.1 L = d L) := by
  refine @swap_spec f d L P S _ _ (fun n => n = some (.dir es)) hLP hLS hPS rfl (fun hf => ?_)
    (by simp [Op.spots, hPS, hLP.symm]) ⟨by simp [hLS.symm], by simp, by simp⟩
    (fun _ => rfl) fun d' hd' hf => ?_
  · rw [run_of_ne hf]
    exact Function.update_self _ _ _
  · obtain ⟨hok, hyes, hno⟩ := exec_rename_dir hf hLS.symm (hd'.trans hd)
    refine ⟨fun h => hyes (hok.1 h), fun h => ?_⟩
    have hL : d' L ≠ none := fun h0 => absurd (h.symm.trans (hok.2 h0)) (by simp)
    exact ⟨hL, hno hL⟩

/-- The swap of the configuration: a directory with files under the name of the previous one would
be in its way. -/
theorem swap_conf {es : List (Bytes × Node)} {c : Bytes}
    (hprev : ∀ x xs, d .confPrev ≠ some (.dir (x :: xs))) (hd : d .confStaging = some (.dir es))
    (hc : (Node.dir es).lookup confName = some (.file c)) :
    let r := swapConf f d
    (r.2 = true → r.1 .conf = some (.file c)) ∧
    (r.2 = false → f.Among (.remove .confPrev) (.rename .conf .confPrev)
        (.renameFrom .confStaging confName .conf) ∧
      run f .undo (.rename .confPrev .conf) r.1 .conf = d .conf) := by
  have h := @swap_spec f d .conf .confPrev .confStaging (.remove .confPrev)
    (.renameFrom .confStaging confName .conf) (fun n => n = some (.file c)) (by decide) (by decide)
    (by decide) rfl (fun hf => ?_) (by decide) ⟨by simp, by simp, by simp⟩ (fun _ => rfl)
    fun d' hd' hf => ?_
  · exact ⟨fun hr => (h.1 hr).1, h.2⟩
  · rw [run_of_ne hf]
    simp only [perform]
    split
    · next hp => exact hp
    · next x xs hp => exact absurd hp (hprev x xs)
    · rw [Option.getD_some]
      exact Function.update_self _ _ _
  · rw [exec_of_ne hf, perform, hd', hd]
    simp only [hc]
    cases hL : d' .conf with
    | none =>
      simp only [moveTo, hL, Option.map_some, Option.getD_some]
      refine ⟨fun _ => ?_, fun h => absurd h (by simp)⟩
      rw [Function.update_of_ne (by decide), Function.update_self]
    | some n =>
      cases n with
      | file b =>
        simp only [moveTo, hL, Node.isDir, Bool.or_self, Bool.false_eq_true, if_false, Option.map_some,
          Option.getD_some]
        refine ⟨fun _ => ?_, fun h => absurd h (by simp)⟩
        rw [Function.update_of_ne (by decide), Function.update_self]
      | dir xs => simp [moveTo, hL, Node.isDir]

end Desired
