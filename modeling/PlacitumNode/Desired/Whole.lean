import PlacitumNode.Lib.Run
import PlacitumNode.Desired.Swap

/-!
# A generation is applied whole or not at all

* `Whole`, `Described`: what holds after `Apply` and after a run of the handler;
* `store_undone`, `pages_undone`, `conf_undone`: what each branch of an error leaves;
* `install_swapped`: the three swaps and the steps after them;
* `generations_whole`: both hold in the runs in which the steps after the last swap do not fail.
-/

namespace Desired

open Octets Run

variable {f : Fault} {d : Disk} {s : Spot}

/-! ### Applying -/

variable {e : Env} {p : Pack} {o : Orders p} {blobs : Blobs} {raw : RawPack}

/-- The live files are those of the generation. -/
structure Installed (e : Env) (p : Pack) (blobs : Blobs) (d : Disk) : Prop where
  conf : ∃ text, blobs p.config = some text ∧
    d .conf = some (.file (liveText text p.keys e.liveStore e.livePages))
  store : ∃ es, d .live = some (.dir es) ∧ (es.map Prod.fst).Perm p.keys ∧
    ∀ u ∈ p.keys, ∃ data, plain e p blobs u = some data ∧ (u, .file data) ∈ es
  pages : ∃ es, d .pages = some (.dir es) ∧ (es.map Prod.fst).Perm (p.pages.map Prod.fst) ∧
    ∀ n ∈ p.pages.map Prod.fst, ∃ body, pageBody p blobs n = some body ∧ (n, .file body) ∈ es

/-- The live files are the same. -/
def SameLive (d d' : Disk) : Prop :=
  d' .live = d .live ∧ d' .pages = d .pages ∧ d' .conf = d .conf

/-- **All or nothing**: nothing outside the two directories is written; after an error the live files
are what they were, and after success they are those of the generation, with the fingerprint that is
returned. -/
structure Whole (e : Env) (p : Pack) (blobs : Blobs) (d d' : Disk) (result : Option String) : Prop where
  outside : ∀ path, d' (.outside path) = d (.outside path)
  nothing : result = none → SameLive d d'
  all : ∀ fp, result = some fp → Installed e p blobs d' ∧ fp = confFingerprint e d'

/-- The call that fails is not one of the two after the last swap, and the name of the previous
configuration is not taken by a directory with entries. -/
structure Safe (f : Fault) (d : Disk) : Prop where
  write : f.step ≠ some (.forward, .write .conf)
  reload : f.step ≠ some (.forward, .reload)
  prev : ∀ x xs, d .confPrev ≠ some (.dir (x :: xs))

theorem swap_frame {clear keep put : Op} (h1 : s ∉ clear.spots) (h2 : s ∉ keep.spots)
    (h3 : s ∉ put.spots) : (swap f clear keep put d).1 s = d s := by
  rw [swap, exec_frame h3, run_frame h2, run_frame h1]

theorem andThen_of_true {r : Disk × Bool} {undo : Disk → Disk} {next : Disk → Disk × Bool}
    (h : r.2 = true) : andThen r undo next = next r.1 := if_pos h

theorem andThen_of_false {r : Disk × Bool} {undo : Disk → Disk} {next : Disk → Disk × Bool}
    (h : r.2 = false) : andThen r undo next = (undo r.1, false) := by
  rw [andThen, h]
  rfl

theorem finish_ok {body c : Bytes} (h1 : f.step ≠ some (.forward, .write .conf))
    (h2 : f.step ≠ some (.forward, .reload)) (hc : d .conf = some (.file c)) :
    (finish f body d).2 = true ∧ (finish f body d).1 .conf = some (.file body) ∧
      ∀ s, s ∉ [Spot.conf, .confStaging, .prev, .prevPages, .confPrev] →
        (finish f body d).1 s = d s := by
  have hconf : run f .after (.removeAll .confStaging) d .conf = some (.file c) :=
    (run_frame (by decide)).trans hc
  have hw : exec f .forward (.write .conf) body (run f .after (.removeAll .confStaging) d) =
      (Function.update (run f .after (.removeAll .confStaging) d) .conf (some (.file body)), true) := by
    rw [exec_of_ne h1, perform, hconf]
    rfl
  have hr : ∀ d', exec f .forward .reload [] d' = (d', true) := by
    intro d'
    rw [exec_of_ne h2]
    rfl
  unfold finish
  rw [andThen_of_true (by rw [hw]), hw, andThen_of_true (by rw [hr]), hr]
  refine ⟨rfl, ?_, fun s hs => ?_⟩
  · dsimp only
    rw [run_frame (by decide), run_frame (by decide), run_frame (by decide)]
    exact Function.update_self _ _ _
  · simp only [List.mem_cons, List.not_mem_nil, or_false, not_or] at hs
    obtain ⟨hs1, hs2, hs3, hs4, hs5⟩ := hs
    dsimp only
    rw [run_frame (by simpa [Op.spots] using hs5), run_frame (by simpa [Op.spots] using hs4),
      run_frame (by simpa [Op.spots] using hs3), Function.update_of_ne hs1,
      run_frame (by simpa [Op.spots] using hs2)]

/-- What is taken away and put back is there again. -/
theorem undo_spec {L P : Spot} (hLP : P ≠ L) (h1 : f.step ≠ some (.undo, .removeAll L))
    (h2 : f.step ≠ some (.undo, .rename P L)) :
    run f .undo (.rename P L) (run f .undo (.removeAll L) d) L = d P := by
  have hL : run f .undo (.removeAll L) d L = none := by
    rw [run_of_ne h1]
    exact Function.update_self _ _ _
  rw [(run_rename_free h2 hLP hL).1]
  exact run_frame (by simpa [Op.spots] using hLP)

theorem Fault.Among.not_undo {clear keep put op : Op} (h : f.Among clear keep put) :
    f.step ≠ some (.undo, op) := by
  intro hu
  rcases h with h | h | h <;> rw [h] at hu <;> simp at hu

/-- What `install` leaves: after an error, the live files as they were. -/
structure Swapped (body : Bytes) (d : Disk) (r : Disk × Bool) : Prop where
  outside : ∀ path, r.1 (.outside path) = d (.outside path)
  nothing : r.2 = false → SameLive d r.1
  all : r.2 = true →
    r.1 .live = d .staging ∧ r.1 .pages = d .stagingPages ∧ r.1 .conf = some (.file body)

theorem swapStore_frame (hs : s ∉ [Spot.live, .prev, .staging]) : (swapStore f d).1 s = d s := by
  simp only [List.mem_cons, List.not_mem_nil, or_false, not_or] at hs
  exact swap_frame (by simp [Op.spots, hs]) (by simp [Op.spots, hs]) (by simp [Op.spots, hs])

theorem swapPages_frame (hs : s ∉ [Spot.pages, .prevPages, .stagingPages]) :
    (swapPages f d).1 s = d s := by
  simp only [List.mem_cons, List.not_mem_nil, or_false, not_or] at hs
  exact swap_frame (by simp [Op.spots, hs]) (by simp [Op.spots, hs]) (by simp [Op.spots, hs])

theorem swapConf_frame (hs : s ∉ [Spot.conf, .confPrev, .confStaging]) :
    (swapConf f d).1 s = d s := by
  simp only [List.mem_cons, List.not_mem_nil, or_false, not_or] at hs
  exact swap_frame (by simp [Op.spots, hs]) (by simp [Op.spots, hs]) (by simp [Op.spots, hs])

/-- The store has been swapped, with the previous one kept unless one of the calls failed. -/
structure StoreSwapped (f : Fault) (d d₁ : Disk) : Prop where
  rest : ∀ s, s ∉ [Spot.live, .prev, .staging] → d₁ s = d s
  live : d₁ .live = d .staging
  prev : ¬ f.Among (.removeAll .prev) (.rename .live .prev) (.rename .staging .live) →
    d₁ .prev = d .live

/-- And the pages have. -/
structure PagesSwapped (f : Fault) (d d₂ : Disk) : Prop where
  rest : ∀ s, s ∉ [Spot.live, .prev, .staging, .pages, .prevPages, .stagingPages] → d₂ s = d s
  live : d₂ .live = d .staging
  prev : ¬ f.Among (.removeAll .prev) (.rename .live .prev) (.rename .staging .live) →
    d₂ .prev = d .live
  pages : d₂ .pages = d .stagingPages
  prevPages : ¬ f.Among (.removeAll .prevPages) (.rename .pages .prevPages)
    (.rename .stagingPages .pages) → d₂ .prevPages = d .pages

theorem swapStore_spec {es : List (Bytes × Node)} (hd : d .staging = some (.dir es)) :
    ((swapStore f d).2 = true → StoreSwapped f d (swapStore f d).1) ∧
    ((swapStore f d).2 = false →
      run f .undo (.rename .prev .live) (swapStore f d).1 .live = d .live) := by
  obtain ⟨hyes, hno⟩ := swap_dir (f := f) (L := .live) (P := .prev) (by decide) (by decide)
    (by decide) hd
  refine ⟨fun hr => ?_, fun hr => (hno hr).2⟩
  obtain ⟨hlive, hprev⟩ := hyes hr
  exact ⟨fun _ => swapStore_frame, hlive.trans hd.symm, hprev⟩

theorem swapPages_spec {d₁ : Disk} {es : List (Bytes × Node)}
    (hd : d .stagingPages = some (.dir es)) (h : StoreSwapped f d d₁) :
    ((swapPages f d₁).2 = true → PagesSwapped f d (swapPages f d₁).1) ∧
    ((swapPages f d₁).2 = false →
      f.Among (.removeAll .prevPages) (.rename .pages .prevPages) (.rename .stagingPages .pages) ∧
      run f .undo (.rename .prevPages .pages) (swapPages f d₁).1 .pages = d .pages) := by
  have hd₁ : d₁ .stagingPages = some (.dir es) := (h.rest _ (by decide)).trans hd
  obtain ⟨hyes, hno⟩ := swap_dir (f := f) (L := .pages) (P := .prevPages) (by decide) (by decide)
    (by decide) hd₁
  have hpages₁ : d₁ .pages = d .pages := h.rest _ (by decide)
  refine ⟨fun hr => ?_, fun hr => ⟨(hno hr).1, (hno hr).2.trans hpages₁⟩⟩
  obtain ⟨hpages, hprev⟩ := hyes hr
  refine ⟨fun s hs => ?_, ?_, fun hf => ?_, hpages.trans hd.symm, fun hf => (hprev hf).trans hpages₁⟩
  · simp only [List.mem_cons, List.not_mem_nil, or_false, not_or] at hs
    rw [swapPages_frame (by simp [hs]), h.rest s (by simp [hs])]
  · rw [swapPages_frame (by decide), h.live]
  · rw [swapPages_frame (by decide), h.prev hf]

theorem store_undone {body : Bytes}
    (hlive : run f .undo (.rename .prev .live) (swapStore f d).1 .live = d .live) :
    Swapped body d (cleanAll f (run f .undo (.rename .prev .live) (swapStore f d).1), false) := by
  have hrest : ∀ s, s ∉ staged → s ∉ [Spot.live, .prev, .staging] →
      cleanAll f (run f .undo (.rename .prev .live) (swapStore f d).1) s = d s := by
    intro s hs hs'
    rw [cleanAll_frame hs, run_frame, swapStore_frame hs']
    simp only [List.mem_cons, List.not_mem_nil, or_false, not_or] at hs'
    simp [Op.spots, hs']
  refine ⟨fun path => hrest _ (by simp [staged]) (by simp), fun _ => ⟨?_, ?_, ?_⟩,
    fun h => absurd h (by simp)⟩
  · exact (cleanAll_frame (by decide)).trans hlive
  · exact hrest _ (by decide) (by decide)
  · exact hrest _ (by decide) (by decide)

theorem pages_undone {body : Bytes} {d₁ : Disk} (h : StoreSwapped f d d₁)
    (hf : f.Among (.removeAll .prevPages) (.rename .pages .prevPages) (.rename .stagingPages .pages))
    (hpages : run f .undo (.rename .prevPages .pages) (swapPages f d₁).1 .pages = d .pages) :
    Swapped body d (run f .undo (.removeAll .confStaging)
      (undoStore f (run f .undo (.rename .prevPages .pages) (swapPages f d₁).1)), false) := by
  have hprev : d₁ .prev = d .live := by
    refine h.prev fun hf' => ?_
    rcases hf with h | h | h <;> simp [Fault.Among, h] at hf'
  have hundo := @undo_spec f (run f .undo (.rename .prevPages .pages) (swapPages f d₁).1) .live
    .prev (by decide) hf.not_undo hf.not_undo
  have hrest : ∀ s, s ∉ [Spot.live, .prev, .staging, .pages, .prevPages, .stagingPages,
      .confStaging] → run f .undo (.removeAll .confStaging) (undoStore f
        (run f .undo (.rename .prevPages .pages) (swapPages f d₁).1)) s = d s := by
    intro s hs
    simp only [List.mem_cons, List.not_mem_nil, or_false, not_or] at hs
    rw [run_frame (by simp [Op.spots, hs]), undoStore, run_frame (by simp [Op.spots, hs]),
      run_frame (by simp [Op.spots, hs]), run_frame (by simp [Op.spots, hs]),
      swapPages_frame (by simp [hs]), h.rest s (by simp [hs])]
  refine ⟨fun path => hrest _ (by simp), fun _ => ⟨?_, ?_, hrest _ (by decide)⟩,
    fun h => absurd h (by simp)⟩
  · dsimp only
    rw [run_frame (by decide), undoStore, hundo, run_frame (by decide), swapPages_frame (by decide),
      hprev]
  · dsimp only
    rw [run_frame (by decide), undoStore, run_frame (by decide), run_frame (by decide), hpages]

theorem conf_undone {body : Bytes} {d₂ : Disk} (h : PagesSwapped f d d₂)
    (hf : f.Among (.remove .confPrev) (.rename .conf .confPrev)
      (.renameFrom .confStaging confName .conf))
    (hconf : run f .undo (.rename .confPrev .conf) (swapConf f d₂).1 .conf = d₂ .conf) :
    Swapped body d (undoPages f (undoStore f
      (run f .undo (.rename .confPrev .conf) (swapConf f d₂).1)), false) := by
  have hprev : d₂ .prev = d .live := by
    refine h.prev fun hf' => ?_
    rcases hf with h | h | h <;> simp [Fault.Among, h] at hf'
  have hprevPages : d₂ .prevPages = d .pages := by
    refine h.prevPages fun hf' => ?_
    rcases hf with h | h | h <;> simp [Fault.Among, h] at hf'
  have hundo := @undo_spec f (run f .undo (.rename .confPrev .conf) (swapConf f d₂).1) .live
    .prev (by decide) hf.not_undo hf.not_undo
  have hundo' := @undo_spec f
    (undoStore f (run f .undo (.rename .confPrev .conf) (swapConf f d₂).1)) .pages .prevPages
    (by decide) hf.not_undo hf.not_undo
  refine ⟨fun path => ?_, fun _ => ⟨?_, ?_, ?_⟩, fun h => absurd h (by simp)⟩
  · dsimp only
    rw [undoPages, run_frame (by simp [Op.spots]), run_frame (by simp [Op.spots]), undoStore,
      run_frame (by simp [Op.spots]), run_frame (by simp [Op.spots]),
      run_frame (by simp [Op.spots]), swapConf_frame (by simp), h.rest _ (by simp)]
  · dsimp only
    rw [undoPages, run_frame (by decide), run_frame (by decide), undoStore, hundo,
      run_frame (by decide), swapConf_frame (by decide), hprev]
  · dsimp only
    rw [undoPages, hundo', undoStore, run_frame (by decide), run_frame (by decide),
      run_frame (by decide), swapConf_frame (by decide), hprevPages]
  · dsimp only
    rw [undoPages, run_frame (by decide), run_frame (by decide), undoStore,
      run_frame (by decide), run_frame (by decide), hconf, h.rest _ (by decide)]

theorem install_swapped {body : Bytes} (hst : Staged e p o blobs d) (hs : Safe f d) :
    Swapped body d (install f body d) := by
  obtain ⟨es, c, hes, hc⟩ := hst.conf
  obtain ⟨hyes₁, hno₁⟩ := swapStore_spec (f := f) hst.store
  unfold install
  cases hr₁ : (swapStore f d).2 with
  | false =>
    rw [andThen_of_false hr₁]
    exact store_undone (hno₁ hr₁)
  | true =>
    rw [andThen_of_true hr₁]
    obtain ⟨hyes₂, hno₂⟩ := swapPages_spec hst.pages (hyes₁ hr₁)
    cases hr₂ : (swapPages f (swapStore f d).1).2 with
    | false =>
      rw [andThen_of_false hr₂]
      exact pages_undone (hyes₁ hr₁) (hno₂ hr₂).1 (hno₂ hr₂).2
    | true =>
      rw [andThen_of_true hr₂]
      have h₂ := hyes₂ hr₂
      generalize (swapPages f (swapStore f d).1).1 = d₂ at h₂
      have hprev : ∀ x xs, d₂ .confPrev ≠ some (.dir (x :: xs)) := by
        intro x xs
        rw [h₂.rest _ (by decide)]
        exact hs.prev x xs
      obtain ⟨hyes₃, hno₃⟩ := swap_conf (f := f) hprev ((h₂.rest _ (by decide)).trans hes) hc
      cases hr₃ : (swapConf f d₂).2 with
      | false =>
        rw [andThen_of_false hr₃]
        exact conf_undone h₂ (hno₃ hr₃).1 (hno₃ hr₃).2
      | true =>
        rw [andThen_of_true hr₃]
        obtain ⟨hok, hconf, hrest⟩ := @finish_ok f _ body c hs.write hs.reload (hyes₃ hr₃)
        refine ⟨fun path => ?_, fun h => absurd (hok.symm.trans h) (by simp), fun _ => ⟨?_, ?_, hconf⟩⟩
        · rw [hrest _ (by simp), swapConf_frame (by simp), h₂.rest _ (by simp)]
        · rw [hrest _ (by decide), swapConf_frame (by decide), h₂.live]
        · rw [hrest _ (by decide), swapConf_frame (by decide), h₂.pages]

theorem pages_plain (hraw : parsePack raw = some p) : ∀ n ∈ p.pages.map Prod.fst, plainName n = true := by
  unfold parsePack at hraw
  split at hraw
  · cases hraw
  split at hraw
  · cases hraw
  split at hraw
  · cases hraw
  split at hraw
  · cases hraw
  split at hraw
  · cases hraw
  · next hall =>
    obtain rfl := Option.some.inj hraw
    intro n hn
    obtain ⟨x, hx, rfl⟩ := List.mem_map.1 hn
    simp only [Bool.not_eq_true', Bool.not_eq_false, List.all_eq_true, Bool.and_eq_true] at hall
    exact plainName_of_safe (hall x hx).1

theorem written_names (content : Bytes → Option Bytes) (ns : List Bytes) :
    (written content ns).map Prod.fst = ns := by
  simp [written, Function.comp_def]

/-- The files of a directory whose names all have a content. -/
theorem written_exact {content : Bytes → Option Bytes} {ns names : List Bytes} (hp : ns.Perm names)
    (hc : ∀ n ∈ ns, (content n).isSome = true) :
    ((written content ns).map Prod.fst).Perm names ∧
      ∀ n ∈ names, ∃ data, content n = some data ∧ (n, .file data) ∈ written content ns := by
  rw [written_names]
  refine ⟨hp, fun n hn => ?_⟩
  have hn' := hp.symm.subset hn
  obtain ⟨data, hdata⟩ := Option.isSome_iff_exists.1 (hc n hn')
  exact ⟨data, hdata, List.mem_map.2 ⟨n, hn', by rw [hdata]; rfl⟩⟩

/-- **Apply is all or nothing**, unless one of the steps after the last swap fails. -/
theorem apply_whole (he : PlainDir e.storeDir) (hraw : parsePack raw = some p) (hs : Safe f d) :
    Whole e p blobs d (apply e p o blobs f d).1 (apply e p o blobs f d).2 := by
  have hsame : Whole e p blobs d d none :=
    ⟨fun _ => rfl, fun _ => ⟨rfl, rfl, rfl⟩, by rintro fp ⟨⟩⟩
  unfold apply
  split
  · exact hsame
  · next text htext =>
    split
    · exact hsame
    · next hman =>
      simp only [Bool.not_eq_true', Bool.not_eq_false, manifestOk, Bool.and_eq_true,
        List.all_eq_true, decide_eq_true_eq] at hman
      obtain ⟨⟨-, hrefs⟩, hplain⟩ := hman
      have huuid : ∀ u ∈ p.keys, isUuid u = true := fun u hu => extractRefs_isUuid (hrefs u hu)
      have hw : ∀ n ∈ o.write, plainName n = true := fun n hn =>
        plainName_of_uuid (huuid n (o.write_perm.subset hn))
      have hp : ∀ n ∈ o.pages, plainName n = true := fun n hn =>
        pages_plain hraw n (o.pages_perm.subset hn)
      have hframe : ∀ s, s ∉ staged → (stage e p o blobs text f d).1 s = d s := fun s hs =>
        stage_frame hw hp hs
      have hbody : substitute text o.live e.liveStore e.livePages =
          liveText text p.keys e.liveStore e.livePages :=
        substitute_eq o.live_perm huuid p.store_nodup (he.join (by decide))
          (he.join (by decide)).absolute
      simp only
      cases hr : (stage e p o blobs text f d).2 with
      | false =>
        rw [andThen_of_false hr]
        refine ⟨fun path => hframe _ (by simp [staged]), fun _ => ⟨?_, ?_, ?_⟩, by rintro fp ⟨⟩⟩
        all_goals exact hframe _ (by decide)
      | true =>
        rw [andThen_of_true hr]
        have hst := stage_ok hw hp (o.write_perm.nodup_iff.2 p.store_nodup)
          (o.pages_perm.nodup_iff.2 p.pages_nodup) hr
        have hsafe : Safe f (stage e p o blobs text f d).1 :=
          ⟨hs.write, hs.reload, by rw [hframe _ (by decide)]; exact hs.prev⟩
        obtain ⟨hout, hno, hyes⟩ := @install_swapped f _ e p o blobs
          (substitute text o.live e.liveStore e.livePages) hst hsafe
        refine ⟨fun path => (hout path).trans (hframe _ (by simp [staged])), fun hnone => ?_,
          fun fp hfp => ?_⟩
        · split at hnone
          · cases hnone
          · next hfalse =>
            obtain ⟨h1, h2, h3⟩ := hno (Bool.eq_false_iff.2 hfalse)
            exact ⟨h1.trans (hframe _ (by decide)), h2.trans (hframe _ (by decide)),
              h3.trans (hframe _ (by decide))⟩
        · split at hfp
          · next htrue =>
            obtain ⟨h1, h2, h3⟩ := hyes htrue
            have hstore := written_exact o.write_perm fun n hn =>
              hplain n (o.write_perm.subset hn)
            have hpages := written_exact o.pages_perm hst.pageBodies
            refine ⟨⟨⟨text, htext, h3.trans (by rw [hbody])⟩, ⟨_, h1.trans hst.store, hstore⟩,
              ⟨_, h2.trans hst.pages, hpages⟩⟩, ?_⟩
            rw [confFingerprint, h3, ← Option.some.inj hfp]
          · cases hfp

/-! ### The generations -/

/-- What is kept after the generations `gs` describes the live files: the fingerprint is that of the
live configuration; without a hash the live files are those of the start; and with one they are those
of the generation of the run that has this hash and revision and was applied with this fingerprint. -/
structure Described (e : Env) (d : Disk) (gs : List Generation) (s : Watched) : Prop where
  conf : s.conf = confFingerprint e s.disk
  first : s.hash = "" → SameLive d s.disk
  generation : s.hash ≠ "" → ∃ gs₁ g gs₂ blobs, gs = gs₁ ++ g :: gs₂ ∧ g.blobs = some blobs ∧
    (apply e g.pack g.orders blobs g.fault (runFrom (handle e) (Watched.new e d) gs₁).disk).2 =
      some s.conf ∧
    g.pack.sha256 = s.hash ∧ g.pack.rev = s.rev ∧ Installed e g.pack blobs s.disk

/-- A generation that `ParsePack` has accepted, and whose steps after the last swap do not fail. -/
def SafeStep (s : Watched) (g : Generation) : Prop :=
  (∃ raw, parsePack raw = some g.pack) ∧ Safe g.fault s.disk

theorem SameLive.trans {d₁ d₂ : Disk} (h₁ : SameLive d d₁) (h₂ : SameLive d₁ d₂) : SameLive d d₂ :=
  ⟨h₂.1.trans h₁.1, h₂.2.1.trans h₁.2.1, h₂.2.2.trans h₁.2.2⟩

theorem Installed.congr {d' : Disk} (h : Installed e p blobs d) (hs : SameLive d d') :
    Installed e p blobs d' := by
  obtain ⟨h1, h2, h3⟩ := hs
  obtain ⟨hconf, hstore, hpages⟩ := h
  refine ⟨?_, ?_, ?_⟩
  · rw [h3]
    exact hconf
  · rw [h1]
    exact hstore
  · rw [h2]
    exact hpages

/-- The hash of a generation that is accepted is not empty. -/
theorem sha256_ne_empty (hraw : parsePack raw = some p) : p.sha256 ≠ "" := by
  unfold parsePack at hraw
  split at hraw
  · cases hraw
  split at hraw
  · cases hraw
  split at hraw
  · cases hraw
  · next hhash =>
    split at hraw
    · cases hraw
    split at hraw
    · cases hraw
    · obtain rfl := Option.some.inj hraw
      exact (not_or.1 hhash).1

/-- A generation that leaves the live files, and what is kept about them, alone. -/
theorem Described.skip {gs : List Generation} {s s' : Watched} (h : Described e d gs s)
    (g : Generation) (hlive : SameLive s.disk s'.disk) (hhash : s'.hash = s.hash)
    (hrev : s'.rev = s.rev) (hconf : s'.conf = s.conf) : Described e d (gs ++ [g]) s' := by
  refine ⟨?_, fun hne => ?_, fun hne => ?_⟩
  · rw [hconf, h.conf, confFingerprint, confFingerprint, hlive.2.2]
  · exact (h.first (hhash ▸ hne)).trans hlive
  · obtain ⟨gs₁, g', gs₂, blobs, rfl, hblobs, happly, hsha, hr, hinst⟩ := h.generation (hhash ▸ hne)
    refine ⟨gs₁, g', gs₂ ++ [g], blobs, by simp, hblobs, ?_, hsha.trans hhash.symm, hr.trans hrev.symm,
      hinst.congr hlive⟩
    rw [hconf]
    exact happly

/-- **One generation.** -/
theorem described_handle {g : Generation} {gs : List Generation} {s : Watched}
    (he : PlainDir e.storeDir) (hraw : parsePack raw = some g.pack) (hs : Safe g.fault s.disk)
    (hrun : s = runFrom (handle e) (Watched.new e d) gs) (h : Described e d gs s) :
    Described e d (gs ++ [g]) (handle e s g) := by
  unfold handle
  split
  · exact h.skip g ⟨rfl, rfl, rfl⟩ rfl rfl rfl
  · split
    · exact h.skip g ⟨rfl, rfl, rfl⟩ rfl rfl rfl
    · next blobs hblobs =>
      have hwhole := @apply_whole g.fault s.disk e g.pack g.orders blobs raw he hraw hs
      split
      -- A failing `Apply` leaves the live files, so what is kept still describes them.
      · next d' hd' =>
        rw [hd'] at hwhole
        exact h.skip g (hwhole.nothing rfl) rfl rfl rfl
      · next d' fp hd' =>
        rw [hd'] at hwhole
        obtain ⟨hinst, hfp⟩ := hwhole.all fp rfl
        refine ⟨hfp, fun hnil => absurd hnil (sha256_ne_empty hraw), fun _ => ?_⟩
        -- The generation that is described is this one, applied to what the run before it has left.
        refine ⟨gs, g, [], blobs, rfl, hblobs, ?_, rfl, rfl, hinst⟩
        rw [← hrun, hd']

theorem described_run {gs : List Generation} (he : PlainDir e.storeDir)
    (h : Along (handle e) SafeStep (Watched.new e d) gs) :
    Described e d gs (runFrom (handle e) (Watched.new e d) gs) := by
  induction gs using List.reverseRecOn with
  | nil => exact ⟨rfl, fun _ => ⟨rfl, rfl, rfl⟩, fun hne => absurd rfl hne⟩
  | append_singleton gs g ih =>
    obtain ⟨hgs, ⟨raw, hraw⟩, hs⟩ := (along_append.1 h).imp_right And.left
    rw [runFrom_append]
    exact described_handle he hraw hs rfl (ih hgs)

/-- **Generations are applied whole.**  When the steps after the last swap do not fail, every `Apply`
is all or nothing, and after every run of the handler what is kept describes the live files. -/
theorem generations_whole (he : PlainDir e.storeDir) :
    (∀ raw p o blobs f d, parsePack raw = some p → Safe f d →
      Whole e p blobs d (apply e p o blobs f d).1 (apply e p o blobs f d).2) ∧
    ∀ d gs, Along (handle e) SafeStep (Watched.new e d) gs →
      Described e d gs (runFrom (handle e) (Watched.new e d) gs) :=
  ⟨fun _ _ _ _ _ _ hraw hs => apply_whole he hraw hs, fun _ _ h => described_run he h⟩

/-- A node whose store is under `/s`, with the checksums of the two configurations below. -/
def bareEnv : Env where
  decrypt _ := none
  fingerprint body :=
    if body = ascii "old" then "md5:149603e6c03516362a8da23f624db945"
    else if body = ascii "new" then "md5:22af645d1859cb5ca6da0c484f1f37ea"
    else ""
  storeDir := ascii "/s"

def bareRaw : RawPack :=
  ⟨1, "nginx-pack", 1, "sha256:p", "sha256:c", [], [], List.nodup_nil, List.nodup_nil⟩

def barePack : Pack := ⟨1, "sha256:p", "sha256:c", [], [], List.nodup_nil, List.nodup_nil⟩

def bareOrders : Orders barePack := ⟨[], [], [], [], .refl _, .refl _, .refl _, .refl _⟩

def bareBlobs : Blobs := fun hash => if hash = "sha256:c" then some (ascii "new") else none

def bareDisk : Disk := fun s => if s = .conf then some (.file (ascii "old")) else none

theorem bare_parsed : parsePack bareRaw = some barePack := rfl

theorem bare_plain : PlainDir bareEnv.storeDir := by
  refine ⟨rfl, by decide, fun u hu h => ?_⟩
  have hlen := h.length_le
  rw [List.length_append, length_uuid hu] at hlen
  exact absurd hlen (by decide)

theorem bare_safe : Safe ⟨none, none⟩ bareDisk := ⟨nofun, nofun, nofun⟩

/-- The name of a stored file. -/
def fileUuid : Bytes := ascii "00000000-0000-0000-0000-00000000000a"

def fullRaw : RawPack :=
  ⟨1, "nginx-pack", 2, "sha256:q", "sha256:d", [(fileUuid, "sha256:f")],
    [(ascii "denied.html", "sha256:g")], by decide, by decide⟩

/-- A generation with a stored file and a page. -/
def fullPack : Pack :=
  ⟨2, "sha256:q", "sha256:d", [(fileUuid, "sha256:f")], [(ascii "denied.html", "sha256:g")],
    by decide, by decide⟩

def fullOrders : Orders fullPack :=
  ⟨[fileUuid], [fileUuid], [fileUuid], [ascii "denied.html"], .refl _, .refl _, .refl _, .refl _⟩

def fullText : Bytes := ascii "key store:00000000-0000-0000-0000-00000000000a; root pages:;"

def fullBlobs : Blobs := fun hash =>
  if hash = "sha256:d" then some fullText
  else if hash = "sha256:f" then some (ascii "locked")
  else if hash = "sha256:g" then some (ascii "no")
  else none

/-- A node with the private key of the stored file. -/
def fullEnv : Env where
  decrypt c := if c = ascii "locked" then some (ascii "open") else none
  fingerprint body :=
    if body = ascii "key /s/live/00000000-0000-0000-0000-00000000000a; root /s/pages;" then
      "md5:8969bf312a349b26ee675c9f8ce0bbc6"
    else bareEnv.fingerprint body
  storeDir := ascii "/s"

/-- The generation without files and pages, the one with both, and one whose blobs are missing. -/
def fullRun : List Generation :=
  [⟨barePack, bareOrders, some bareBlobs, ⟨none, none⟩⟩, ⟨fullPack, fullOrders, some fullBlobs,
    ⟨none, none⟩⟩, ⟨barePack, bareOrders, none, ⟨none, none⟩⟩]

theorem full_parsed : parsePack fullRaw = some fullPack := rfl

theorem full_plain : PlainDir fullEnv.storeDir := bare_plain

/-- The name of the previous configuration is free all along. -/
theorem full_prev :
    ((runFrom (handle fullEnv) (Watched.new fullEnv bareDisk) (fullRun.take 1)).disk
      .confPrev).isNone = true ∧
    ((runFrom (handle fullEnv) (Watched.new fullEnv bareDisk) (fullRun.take 2)).disk
      .confPrev).isNone = true := by
  decide +kernel

theorem full_along : Along (handle fullEnv) SafeStep (Watched.new fullEnv bareDisk) fullRun := by
  have hsafe : ∀ {d : Disk}, (d .confPrev).isNone = true → Safe ⟨none, none⟩ d := by
    intro d h
    refine ⟨nofun, nofun, fun x xs hd => ?_⟩
    rw [hd] at h
    cases h
  exact ⟨⟨⟨bareRaw, bare_parsed⟩, hsafe rfl⟩, ⟨⟨fullRaw, full_parsed⟩, hsafe full_prev.1⟩,
    ⟨⟨bareRaw, bare_parsed⟩, hsafe full_prev.2⟩, trivial⟩

/-- The generation with a stored file and a page is installed, and it is the one that is described
after the one that fails. -/
theorem generations_whole_full :
    Installed fullEnv fullPack fullBlobs
      (apply fullEnv fullPack fullOrders fullBlobs ⟨none, none⟩ bareDisk).1 ∧
    Described fullEnv bareDisk fullRun
      (runFrom (handle fullEnv) (Watched.new fullEnv bareDisk) fullRun) ∧
    (runFrom (handle fullEnv) (Watched.new fullEnv bareDisk) fullRun).hash = "sha256:q" ∧
    (runFrom (handle fullEnv) (Watched.new fullEnv bareDisk) fullRun).ok = false := by
  obtain ⟨hwhole, hruns⟩ := generations_whole full_plain
  have hresult : (apply fullEnv fullPack fullOrders fullBlobs ⟨none, none⟩ bareDisk).2 =
      some "md5:8969bf312a349b26ee675c9f8ce0bbc6" := by
    decide +kernel
  have hlast : (runFrom (handle fullEnv) (Watched.new fullEnv bareDisk) fullRun).hash = "sha256:q" ∧
      (runFrom (handle fullEnv) (Watched.new fullEnv bareDisk) fullRun).ok = false := by
    decide +kernel
  exact ⟨((hwhole _ _ _ _ _ _ full_parsed bare_safe).all _ hresult).1,
    hruns bareDisk fullRun full_along, hlast⟩

/-- The reload fails: the new configuration stays live, with an error. -/
theorem reload_keeps_new :
    parsePack bareRaw = some barePack ∧
    (apply bareEnv barePack bareOrders bareBlobs ⟨some (.forward, .reload), none⟩ bareDisk).2 = none ∧
    (apply bareEnv barePack bareOrders bareBlobs ⟨some (.forward, .reload), none⟩ bareDisk).1 .conf ≠
      bareDisk .conf ∧
    ¬ Whole bareEnv barePack bareBlobs bareDisk
      (apply bareEnv barePack bareOrders bareBlobs ⟨some (.forward, .reload), none⟩ bareDisk).1
      (apply bareEnv barePack bareOrders bareBlobs ⟨some (.forward, .reload), none⟩ bareDisk).2 := by
  set r := apply bareEnv barePack bareOrders bareBlobs ⟨some (.forward, .reload), none⟩ bareDisk
  have hresult : r.2 = none := by decide +kernel
  have hconf : r.1 .conf ≠ bareDisk .conf := by
    intro h
    have hfp : confFingerprint bareEnv r.1 = confFingerprint bareEnv bareDisk := by
      rw [confFingerprint, h]
      rfl
    revert hfp
    decide +kernel
  exact ⟨bare_parsed, hresult, hconf, fun h => hconf (h.nothing hresult).2.2⟩

end Desired
