import PlacitumNode.Attach.Prepare

/-!
# The agent finds what the record names

* `collected`: the bytes of an object that ride with the record;
* `Copy.run_spec`, `attachObject_ok`: an object that is attached is in the file whole;
* `Plan.Fine`: the locators are disjoint spans of the file, with the bytes of their objects;
* `Found`, `found_iff`: every object of the archive can be found, unless the loop was left at an
  object whose remains could not be dropped, with objects still to come.
-/

namespace Attach

open Octets Retain

variable {c : Ctx} {w : World} {k : Kind}

/-- The bytes that the agent is to get. -/
def collected (c : Ctx) (k : Kind) : Bytes :=
  if k = .body then (c.source.flatMap Buf.data).take (c.bodyAttachLen (c.archiveWants k))
  else (c.collect k (c.archiveOriginal k)).getD []

/-! ### Writing an object -/

theorem attachWrite_ok (as : List Answer) (data : Bytes) (h : (attachWrite as data).2.1 = true) :
    (attachWrite as data).1 = data := by
  induction as, data using attachWrite.induct with
  | case1 as => simp [attachWrite]
  | case2 data h => cases data <;> simp [attachWrite]
  | case3 n as data hne ih =>
    cases data with
    | nil => exact absurd rfl hne
    | cons b data =>
      simp only [attachWrite] at h ⊢
      rw [ih h, List.take_append_drop]
  | case4 as data hne ih =>
    cases data with
    | nil => exact absurd rfl hne
    | cons b data =>
      simp only [attachWrite] at h ⊢
      exact ih h
  | case5 as data hne =>
    cases data with
    | nil => exact absurd rfl hne
    | cons b data => simp [attachWrite] at h

/-- After the bytes `D` of the body: what was asked for of them is in the file. -/
structure Copy.After (place L : ℕ) (D : Bytes) (s : Copy) : Prop where
  out : s.out = D.take place
  taken : s.taken = min D.length place
  left : s.left = L - D.length
  le : D.length ≤ L

variable {place L : ℕ} {D : Bytes} {s : Copy}

theorem Copy.After.piece {data : Bytes} (h : s.After place L D) (hd : data.length ≤ s.left)
    (hok' : (s.piece place data).ok = true) :
    (s.piece place data).After place L (D ++ data) := by
  have hleft := h.left
  have hle := h.le
  have htaken := h.taken
  unfold Copy.piece at hok' ⊢
  split at hok'
  · next hlt =>
    rw [if_pos hlt]
    have hD : D.length < place := by omega
    have hw := attachWrite_ok _ _ hok'
    refine ⟨?_, ?_, ?_, ?_⟩
    · dsimp only
      rw [hw, h.out, htaken, List.take_append, min_eq_left hD.le]
    · dsimp only
      rw [List.length_take, List.length_append, htaken]
      omega
    · dsimp only
      rw [List.length_append]
      omega
    · rw [List.length_append]
      omega
  · next hlt =>
    rw [if_neg hlt]
    have hD : place ≤ D.length := by omega
    refine ⟨?_, ?_, ?_, ?_⟩
    · dsimp only
      rw [h.out, List.take_append_of_le_length hD]
    · dsimp only
      rw [List.length_append, htaken]
      omega
    · dsimp only
      rw [List.length_append]
      omega
    · rw [List.length_append]
      omega

theorem Copy.fromFile_of_not_ok (n : ℕ) (data : Bytes) (h : s.ok = false) :
    s.fromFile place n data = s := by
  cases n with
  | zero => rfl
  | succ n =>
    rw [Copy.fromFile, if_pos (.inr (.inr h))]

theorem readFile_le {avail rd : ℕ} {reads : List (Option ℕ)} (h : readFile avail reads = some rd)
    (ha : 1 ≤ avail) : 1 ≤ rd ∧ rd ≤ avail := by
  unfold readFile at h
  split at h
  · cases h
    exact ⟨ha, le_rfl⟩
  · cases h
  · cases h
    omega

theorem Copy.After.fromFile {n : ℕ} {data : Bytes} (h : s.After place L D) (hn : data.length ≤ n)
    (hok : s.ok = true) (hok' : (s.fromFile place n data).ok = true) :
    (s.fromFile place n data).After place L (D ++ data.take (L - D.length)) := by
  induction n generalizing s D data with
  | zero =>
    obtain rfl := List.eq_nil_of_length_eq_zero (Nat.le_zero.1 hn)
    simpa [Copy.fromFile] using h
  | succ n ih =>
    rw [Copy.fromFile] at hok' ⊢
    split at hok'
    · next hstop =>
      rw [if_pos hstop]
      have hnil : data.take (L - D.length) = [] := by
        rcases hstop with rfl | h0 | hfalse
        · exact List.take_nil
        · rw [← h.left, h0]
          exact List.take_zero
        · exact absurd (hok.symm.trans hfalse) (by simp)
      rw [hnil, List.append_nil]
      exact h
    · next hgo =>
      rw [if_neg hgo]
      have hpos : data ≠ [] ∧ s.left ≠ 0 := ⟨fun h' => hgo (.inl h'), fun h' => hgo (.inr (.inl h'))⟩
      have hlen := List.length_pos_iff.2 hpos.1
      split at hok'
      · cases hok'
      · next rd hrd =>
        obtain ⟨hrd1, hrdle⟩ := readFile_le hrd (by rw [attachChunk]; omega)
        have hrd2 : rd ≤ data.length := by omega
        have hs : ({ s with reads := s.reads.tail } : Copy).After place L D :=
          ⟨h.out, h.taken, h.left, h.le⟩
        have htake : (data.take rd).length = rd := by rw [List.length_take, min_eq_left hrd2]
        have hp : (({ s with reads := s.reads.tail } : Copy).piece place (data.take rd)).ok = true := by
          by_contra hne
          rw [Bool.not_eq_true] at hne
          rw [Copy.fromFile_of_not_ok n _ hne, hne] at hok'
          cases hok'
        have hafter := hs.piece (by rw [htake]; dsimp only; omega) hp
        have hrest := ih hafter (by rw [List.length_drop]; omega) hp hok'
        have hsplit : data.take (L - D.length) =
            data.take rd ++ (data.drop rd).take (L - (D ++ data.take rd).length) := by
          rw [List.length_append, htake, ← List.take_add]
          congr 1
          have := h.left
          omega
        rw [hsplit, ← List.append_assoc]
        exact hrest

theorem Copy.After.buf {b : Buf} (h : s.After place L D) (hok : s.ok = true)
    (hok' : (s.buf place b).ok = true) :
    (s.buf place b).After place L (D ++ b.data.take (L - D.length)) := by
  cases b with
  | file data => exact h.fromFile le_rfl hok hok'
  | memory data =>
    have hp := h.piece (by rw [List.length_take]; omega) hok'
    change (s.piece place (data.take s.left)).After place L (D ++ data.take (L - D.length))
    rw [← h.left]
    exact hp

theorem Copy.run_of_not_ok (bs : List Buf) (h : s.ok = false) : s.run place bs = s := by
  cases bs with
  | nil => rfl
  | cons b bs => rw [Copy.run, if_pos (.inr h)]

/-- The loop ends with all the bytes that were to be read. -/
theorem Copy.After.run {bs : List Buf} (h : s.After place L D) (hok : s.ok = true)
    (hok' : (s.run place bs).ok = true) :
    (s.run place bs).After place L (D ++ (bs.flatMap Buf.data).take (L - D.length)) := by
  induction bs generalizing s D with
  | nil => simpa [Copy.run] using h
  | cons b bs ih =>
    rw [Copy.run] at hok' ⊢
    split at hok'
    · next hstop =>
      rw [if_pos hstop]
      have h0 : L - D.length = 0 := by
        rcases hstop with h0 | hfalse
        · rw [← h.left, h0]
        · exact absurd (hok.symm.trans hfalse) (by simp)
      rw [h0, List.take_zero, List.append_nil]
      exact h
    · next hgo =>
      rw [if_neg hgo]
      have hb : (s.buf place b).ok = true := by
        by_contra hne
        rw [Bool.not_eq_true] at hne
        rw [Copy.run_of_not_ok bs hne, hne] at hok'
        cases hok'
      have hrest := ih (h.buf hok hb) hb hok'
      have hsplit : ((b :: bs).flatMap Buf.data).take (L - D.length) = b.data.take (L - D.length) ++
          (bs.flatMap Buf.data).take (L - (D ++ b.data.take (L - D.length)).length) := by
        rw [List.flatMap_cons, List.take_append, List.length_append, List.length_take]
        congr 2
        omega
      rw [hsplit, ← List.append_assoc]
      exact hrest

theorem bodyAttachLen_le (c : Ctx) (limit : ℕ) : c.bodyAttachLen limit ≤ c.bodyLength := by
  unfold Ctx.bodyAttachLen
  simp only
  split
  · exact Nat.zero_le _
  · split
    · exact Nat.zero_le _
    · split <;> omega

theorem bodyLength_eq (c : Ctx) : (c.source.flatMap Buf.data).length = c.bodyLength :=
  List.length_flatMap

/-- The locator says how much is in the file, and that it is there. -/
def Loc.Of (l : Loc) (data : Bytes) : Prop := l.size = data.length ∧ l.unavailable = none

theorem bodyAttach_ok {limit : ℕ} {l : Loc} (h : (bodyAttach c w limit).2 = .ok l) :
    (bodyAttach c w limit).1 = (c.source.flatMap Buf.data).take (c.bodyAttachLen limit) ∧
      l.Of (bodyAttach c w limit).1 := by
  have hle := bodyAttachLen_le c limit
  have hlen := bodyLength_eq c
  unfold bodyAttach at h ⊢
  simp only at h ⊢
  split at h
  · cases h
  · next hplace =>
    rw [if_neg hplace]
    set hashing := ((c.placed .body).bind Loc.sha256).isNone && decide (c.bodyLength ≤ c.bodyLimit)
    set left := if hashing = true then c.bodyLength else c.bodyAttachLen limit with hleft
    have hl : c.bodyAttachLen limit ≤ left ∧ left ≤ c.bodyLength := by
      rw [hleft]
      split <;> omega
    split at h
    · cases h
    · next hok =>
      rw [if_neg hok]
      rw [Bool.not_eq_false] at hok
      have hinit : (⟨[], 0, left, w.writes .body, w.reads, true⟩ : Copy).After
          (c.bodyAttachLen limit) left [] := ⟨by simp, by simp, rfl, Nat.zero_le _⟩
      have hafter := hinit.run rfl hok
      have hout : ((c.source.flatMap Buf.data).take left).take (c.bodyAttachLen limit) =
          (c.source.flatMap Buf.data).take (c.bodyAttachLen limit) := by
        rw [List.take_take, min_eq_left hl.1]
      have htaken := hafter.taken
      have hbytes := hafter.out
      simp only [List.nil_append, List.length_nil, Nat.sub_zero] at hbytes htaken
      rw [hout] at hbytes
      rw [List.length_take, hlen] at htaken
      have hsize : l.size = c.bodyAttachLen limit ∧ l.unavailable = none := by
        obtain rfl := Rc.ok.inj h
        split
        · exact ⟨by simp only [Ctx.bodyAttachResponse]; omega, rfl⟩
        · exact ⟨by dsimp only; omega, rfl⟩
      refine ⟨hbytes, ?_, hsize.2⟩
      rw [hbytes, List.length_take, hlen, hsize.1, min_eq_left hle]

/-- An object that is attached is in the file whole. -/
theorem attachObject_ok {l : Loc} (h : (attachObject c w k).2 = .ok l) :
    (attachObject c w k).1 = collected c k ∧ l.Of (collected c k) := by
  unfold attachObject at h ⊢
  unfold collected
  split at h
  · cases h
  · next ha =>
    rw [if_neg ha]
    split at h
    · next hk =>
      rw [if_pos hk, if_pos hk]
      obtain ⟨hout, hof⟩ := bodyAttach_ok h
      exact ⟨hout, hout ▸ hof⟩
    · next hk =>
      rw [if_neg hk, if_neg hk]
      split at h
      · cases h
      · cases h
      · next blob hne hblob =>
        simp only at h ⊢
        split at h
        · next hok =>
          rw [hblob, Option.getD_some]
          obtain rfl := Rc.ok.inj h
          refine ⟨?_, rfl, rfl⟩
          exact attachWrite_ok _ _ hok
        · cases h

/-! ### The file -/

theorem File.write_end {f : File} (h : f.pos = f.data.length) (b : Bytes) :
    f.write b = ⟨f.data ++ b, f.data.length + b.length⟩ := by
  unfold File.write
  rw [h]
  simp

theorem File.cut_append {f : File} {n : ℕ} {data b : Bytes} (hd : f.data = data ++ b)
    (hn : data.length = n) : f.cut n = ⟨data, n⟩ := by
  have h0 : n - f.data.length = 0 := by
    rw [hd, List.length_append]
    omega
  unfold File.cut
  rw [h0, hd, ← hn, List.take_left]
  simp

variable {p p' : Plan}

/-- The next object goes to the end of the file. -/
def Plan.AtEnd (p : Plan) : Prop := p.fd.pos = p.offset ∧ p.fd.data.length = p.offset

/-- The locators of the attached objects are disjoint spans of the file with their bytes. -/
structure Plan.Fine (c : Ctx) (p : Plan) : Prop where
  bound : p.offset ≤ p.fd.data.length
  span : ∀ k, p.attached k = true → ∃ l, p.loc k = some l ∧ l.unavailable = none ∧
    l.offset + l.size ≤ p.offset ∧ (p.fd.data.drop l.offset).take l.size = collected c k
  apart : ∀ k k' l l', k ≠ k' → p.attached k = true → p.attached k' = true → p.loc k = some l →
    p.loc k' = some l' → l.offset + l.size ≤ l'.offset ∨ l'.offset + l'.size ≤ l.offset

/-- A change behind the spans. -/
theorem Plan.Fine.behind (h : p.Fine c) (ha : p'.attached = p.attached) (hl : p'.loc = p.loc)
    (ho : p'.offset = p.offset) (hd : p.fd.data.take p.offset <+: p'.fd.data) : p'.Fine c := by
  have hlen : (p.fd.data.take p.offset).length = p.offset := by
    rw [List.length_take, min_eq_left h.bound]
  refine ⟨?_, fun k hk => ?_, ?_⟩
  · rw [ho, ← hlen]
    exact hd.length_le
  · rw [ha] at hk
    obtain ⟨l, hloc, hav, hle, hspan⟩ := h.span k hk
    refine ⟨l, hl ▸ hloc, hav, ho ▸ hle, ?_⟩
    have hcut : ∀ data : Bytes, p.fd.data.take p.offset <+: data →
        (data.drop l.offset).take l.size =
          ((p.fd.data.take p.offset).drop l.offset).take l.size := by
      rintro data ⟨rest, rfl⟩
      rw [List.drop_append_of_le_length (by omega), List.take_append_of_le_length]
      rw [List.length_drop]
      omega
    rw [hcut _ hd, ← hcut _ (List.take_prefix _ _), hspan]
  · rw [ha, hl]
    exact h.apart

theorem Plan.Fine.attach {l : Loc} (h : p.Fine c) (he : p.AtEnd)
    (hl : l.Of (collected c k)) :
    (p.attach c k (p.fd.write (collected c k)) l).Fine c ∧
      (p.attach c k (p.fd.write (collected c k)) l).AtEnd := by
  obtain ⟨hpos, hlen⟩ := he
  obtain ⟨hsize, hav⟩ := hl
  have hw := File.write_end (hpos.trans hlen.symm) (collected c k)
  have hattached : ∀ k', (p.attach c k (p.fd.write (collected c k)) l).attached k' = true →
      k' ≠ k → p.attached k' = true := fun k' hk' hne => by
    rw [← hk']
    exact (Function.update_of_ne hne _ _).symm
  have hloc : ∀ k', k' ≠ k → (p.attach c k (p.fd.write (collected c k)) l).loc k' = p.loc k' :=
    fun k' hne => Function.update_of_ne hne _ _
  have hself : (p.attach c k (p.fd.write (collected c k)) l).loc k =
      some { l with offset := p.offset } := Function.update_self _ _ _
  have hdata : (p.attach c k (p.fd.write (collected c k)) l).fd.data =
      p.fd.data ++ collected c k := by
    change (p.fd.write (collected c k)).data = _
    rw [hw]
  refine ⟨⟨?_, fun k' hk' => ?_, fun k₁ k₂ l₁ l₂ hne h₁ h₂ hl₁ hl₂ => ?_⟩, ?_, ?_⟩
  · rw [hdata, List.length_append]
    change p.offset + l.size ≤ _
    omega
  · by_cases hne : k' = k
    · subst hne
      refine ⟨_, hself, hav, le_rfl, ?_⟩
      rw [hdata]
      dsimp only
      rw [← hlen, List.drop_left, hsize, List.take_length]
    · obtain ⟨l', hl', hav', hle, hspan⟩ := h.span k' (hattached k' hk' hne)
      refine ⟨l', (hloc k' hne).trans hl', hav', hle.trans (Nat.le_add_right _ _), ?_⟩
      rw [hdata, List.drop_append_of_le_length (by omega), List.take_append_of_le_length, hspan]
      rw [List.length_drop]
      omega
  -- The new object lies behind all that were attached before.
  · by_cases hk₁ : k₁ = k
    · subst hk₁
      obtain rfl := Option.some.inj (hself.symm.trans hl₁)
      rw [hloc k₂ hne.symm] at hl₂
      obtain ⟨l', hl', -, hle, -⟩ := h.span k₂ (hattached k₂ h₂ hne.symm)
      obtain rfl := Option.some.inj (hl'.symm.trans hl₂)
      exact .inr hle
    · rw [hloc k₁ hk₁] at hl₁
      by_cases hk₂ : k₂ = k
      · subst hk₂
        obtain rfl := Option.some.inj (hself.symm.trans hl₂)
        obtain ⟨l', hl', -, hle, -⟩ := h.span k₁ (hattached k₁ h₁ hk₁)
        obtain rfl := Option.some.inj (hl'.symm.trans hl₁)
        exact .inl hle
      · rw [hloc k₂ hk₂] at hl₂
        exact h.apart k₁ k₂ l₁ l₂ hne (hattached k₁ h₁ hk₁) (hattached k₂ h₂ hk₂) hl₁ hl₂
  · change (p.fd.write (collected c k)).pos = p.offset + l.size
    rw [hw]
    dsimp only
    omega
  · rw [hdata, List.length_append]
    change _ = p.offset + l.size
    omega

/-! ### The loop -/

/-- Attaching the object fails. -/
def fails (c : Ctx) (w : World) (k : Kind) : Bool :=
  match (attachObject c w k).2 with
  | .error => true
  | _ => false

/-- The loop is left at the object. -/
def Stops (c : Ctx) (w : World) (k : Kind) : Prop :=
  c.wants k = true ∧ fails c w k = true ∧ ¬ (w.truncate k = true ∧ w.seek k = true)

/-- What the loop has done with an object it had to attach: it rides, or it is dropped from the
archive, unless the loop was left before it. -/
def Plan.Done (c : Ctx) (w : World) (ks : List Kind) (p p' : Plan) (k : Kind) : Prop :=
  ((∃ k₀, Stops c w k₀ ∧ [k₀, k].Sublist ks) →
    p'.attached k = p.attached k ∧ p'.archive k = p.archive k) ∧
  ((¬ ∃ k₀, Stops c w k₀ ∧ [k₀, k].Sublist ks) → p'.attached k = true ∨ p'.archive k = false)

theorem pair_sublist_cons {α : Type*} {a b x : α} {l : List α} :
    [a, b].Sublist (x :: l) ↔ [a, b].Sublist l ∨ a = x ∧ b ∈ l := by
  rw [List.sublist_cons_iff]
  constructor
  · rintro (h | ⟨r, hr, h⟩)
    · exact .inl h
    · obtain ⟨rfl, rfl⟩ := List.cons.inj hr
      exact .inr ⟨rfl, List.singleton_sublist.1 h⟩
  · rintro (h | ⟨rfl, h⟩)
    · exact .inl h
    · exact .inr ⟨[b], rfl, List.singleton_sublist.2 h⟩

/-- What a run of the loop over `ks` makes of the plan. -/
structure Plan.Ran (c : Ctx) (w : World) (ks : List Kind) (p p' : Plan) : Prop where
  fine : p'.Fine c
  rest : ∀ k, k ∉ ks ∨ c.wants k = false →
    p'.attached k = p.attached k ∧ p'.archive k = p.archive k
  done : ∀ k ∈ ks, c.wants k = true → p.Done c w ks p' k

/-- The loop goes on after an object that was settled. -/
theorem Plan.Ran.cons {ks : List Kind} {p₁ : Plan} (h : Plan.Ran c w ks p₁ p') (hk : k ∉ ks)
    (hs : ¬ Stops c w k)
    (hother : ∀ k', k' ≠ k → p₁.attached k' = p.attached k' ∧ p₁.archive k' = p.archive k')
    (hself : if c.wants k then p₁.attached k = true ∨ p₁.archive k = false
      else p₁.attached k = p.attached k ∧ p₁.archive k = p.archive k) :
    Plan.Ran c w (k :: ks) p p' := by
  have hbefore : ∀ k', (∃ k₀, Stops c w k₀ ∧ [k₀, k'].Sublist (k :: ks)) ↔
      ∃ k₀, Stops c w k₀ ∧ [k₀, k'].Sublist ks := by
    intro k'
    constructor
    · rintro ⟨k₀, hs₀, hsub⟩
      rcases pair_sublist_cons.1 hsub with hsub | ⟨rfl, -⟩
      · exact ⟨k₀, hs₀, hsub⟩
      · exact absurd hs₀ hs
    · rintro ⟨k₀, hs₀, hsub⟩
      exact ⟨k₀, hs₀, hsub.trans (List.sublist_cons_self k ks)⟩
  have hkeep := h.rest k (.inl hk)
  refine ⟨h.fine, fun k' hk' => ?_, fun k' hk' hw => ?_⟩
  · by_cases hne : k' = k
    · subst hne
      have hw : c.wants k' = false := hk'.resolve_left fun hn => hn List.mem_cons_self
      rw [if_neg (by rw [hw]; simp)] at hself
      exact ⟨hkeep.1.trans hself.1, hkeep.2.trans hself.2⟩
    · have hrest := h.rest k' (hk'.imp (fun hn hm => hn (List.mem_cons_of_mem _ hm)) id)
      exact ⟨hrest.1.trans (hother k' hne).1, hrest.2.trans (hother k' hne).2⟩
  · unfold Plan.Done
    rw [hbefore]
    by_cases hne : k' = k
    · subst hne
      rw [if_pos hw, ← hkeep.1, ← hkeep.2] at hself
      refine ⟨?_, fun _ => hself⟩
      rintro ⟨k₀, -, hsub⟩
      exact absurd (hsub.subset (List.mem_cons_of_mem _ List.mem_cons_self)) hk
    · have hdone := h.done k' ((List.mem_cons.1 hk').resolve_left hne) hw
      rw [← (hother k' hne).1, ← (hother k' hne).2]
      exact hdone

theorem attachAll_ran (ks : List Kind) (hks : ks.Nodup) (hf : p.Fine c) (he : p.AtEnd)
    (hfresh : ∀ k ∈ ks, p.attached k = false) :
    Plan.Ran c w ks p (attachAll c w c.wants ks p) := by
  induction ks generalizing p with
  | nil => exact ⟨hf, fun _ _ => ⟨rfl, rfl⟩, by rintro k ⟨⟩⟩
  | cons k ks ih =>
    obtain ⟨hk, hks⟩ := List.nodup_cons.1 hks
    have hnotin : ∀ k' ∈ ks, k' ≠ k := fun k' hk' hne => hk (hne ▸ hk')
    have hfresh' : ∀ k' ∈ ks, p.attached k' = false := fun k' hk' =>
      hfresh k' (List.mem_cons_of_mem _ hk')
    rw [attachAll]
    -- An object that is wanted is attached, is not there, or fails to be written.
    split
    · next hw =>
      simp only
      split
      · next l hl =>
        obtain ⟨hout, hof⟩ := attachObject_ok hl
        rw [hout]
        obtain ⟨hf', he'⟩ := hf.attach he hof
        have hran := ih hks hf' he' fun k' hk' =>
          (Function.update_of_ne (hnotin k' hk') _ _).trans (hfresh' k' hk')
        refine hran.cons hk (fun hs => ?_) (fun k' hne => ⟨Function.update_of_ne hne _ _, rfl⟩) ?_
        · have := hs.2.1
          rw [fails, hl] at this
          cases this
        · rw [if_pos hw]
          exact .inl (Function.update_self _ _ _)
      · next hl =>
        have hran := @ih (p.drop k) hks (hf.behind rfl rfl rfl (List.take_prefix _ _)) he hfresh'
        refine hran.cons hk (fun hs => ?_) (fun k' hne => ⟨rfl, Function.update_of_ne hne _ _⟩) ?_
        · have := hs.2.1
          rw [fails, hl] at this
          cases this
        · rw [if_pos hw]
          exact .inr (Function.update_self _ _ _)
      · next hl =>
        have hfail : fails c w k = true := by rw [fails, hl]
        have hdata : (p.fd.write (attachObject c w k).1).data = p.fd.data ++ (attachObject c w k).1 := by
          rw [File.write_end (he.1.trans he.2.symm)]
        have hcut := File.cut_append hdata he.2
        -- Where the file cannot be cut back the loop ends, and the objects behind are untouched.
        have hstop : ∀ p₁ : Plan, p₁.attached = p.attached → p₁.archive = p.archive → p₁.Fine c →
            Stops c w k → Plan.Ran c w (k :: ks) p (p₁.drop k) := by
          intro p₁ ha hm hf₁ hs
          refine ⟨hf₁.behind rfl rfl rfl (List.take_prefix _ _), fun k' hk' => ?_, fun k' hk' _ => ?_⟩
          · have hne : k' ≠ k := by
              rintro rfl
              exact hk'.elim (· List.mem_cons_self) fun h0 => absurd (hw.symm.trans h0) (by simp)
            exact ⟨congrFun ha k', (Function.update_of_ne hne _ _).trans (congrFun hm k')⟩
          · by_cases hne : k' = k
            · subst hne
              refine ⟨?_, fun _ => .inr (Function.update_self _ _ _)⟩
              rintro ⟨k₀, -, hsub⟩
              rcases pair_sublist_cons.1 hsub with hsub | ⟨-, hmem⟩
              · exact absurd (hsub.subset (List.mem_cons_of_mem _ List.mem_cons_self)) hk
              · exact absurd hmem hk
            · refine ⟨fun _ => ⟨congrFun ha k', (Function.update_of_ne hne _ _).trans (congrFun hm k')⟩,
                fun hno => absurd ⟨k, hs, pair_sublist_cons.2 (.inr ⟨rfl, ?_⟩)⟩ hno⟩
              exact (List.mem_cons.1 hk').resolve_left hne
        split
        · next ht =>
          refine hstop _ rfl rfl (hf.behind rfl rfl rfl ?_) ⟨hw, hfail, fun hc => ?_⟩
          · dsimp only
            rw [hdata]
            exact (List.take_prefix _ _).trans (List.prefix_append _ _)
          · simp [hc.1] at ht
        · next ht =>
          split
          · next hseek =>
            refine hstop _ rfl rfl (hf.behind rfl rfl rfl ?_) ⟨hw, hfail, fun hc => ?_⟩
            · dsimp only
              rw [hcut]
              exact List.take_prefix _ _
            · simp [hc.2] at hseek
          · next hseek =>
            rw [hcut]
            have hran := @ih ({ p with fd := ⟨p.fd.data, p.offset⟩ }.drop k) hks
              (hf.behind rfl rfl rfl (List.take_prefix _ _)) ⟨rfl, he.2⟩ hfresh'
            refine hran.cons hk (fun hs => hs.2.2 ?_)
              (fun k' hne => ⟨rfl, Function.update_of_ne hne _ _⟩) ?_
            · simpa using And.intro ht hseek
            · rw [if_pos hw]
              exact .inr (Function.update_self _ _ _)
    · next hw =>
      rw [Bool.not_eq_true] at hw
      refine (ih hks hf he hfresh').cons hk (fun hs => ?_) (fun k' _ => ⟨rfl, rfl⟩) ?_
      · exact absurd (hw.symm.trans hs.1) (by simp)
      · rw [if_neg (by rw [hw]; simp)]
        exact ⟨rfl, rfl⟩

/-! ### The plan -/

/-- What becomes of the objects of the archive. -/
theorem prepare_archive (c : Ctx) (w : World) : (attachPrepare c w).Fine c ∧
    (∀ k, (attachPrepare c w).archive k = true → c.archiveMask k = true) ∧
    (∀ k, c.wants k = false →
      (attachPrepare c w).attached k = false ∧ (attachPrepare c w).archive k = c.archiveMask k) ∧
    ∀ k, c.wants k = true →
      ((w.memfd = true ∧ ∃ k₀, Stops c w k₀ ∧ [k₀, k].Sublist kinds) →
        (attachPrepare c w).attached k = false ∧ (attachPrepare c w).archive k = true) ∧
      ((¬ (w.memfd = true ∧ ∃ k₀, Stops c w k₀ ∧ [k₀, k].Sublist kinds)) →
        (attachPrepare c w).attached k = true ∨ (attachPrepare c w).archive k = false) := by
  have hmask : ∀ k, c.wants k = true → c.archiveMask k = true := fun k hk => by
    rw [Ctx.wants, Bool.and_eq_true] at hk
    exact hk.1
  unfold attachPrepare
  simp only
  split
  · next hnone =>
    have hno : ∀ k, c.wants k = true → False := by
      intro k hk
      simp only [Bool.not_eq_true', List.any_eq_false] at hnone
      exact hnone k (mem_kinds k) hk
    exact ⟨⟨le_rfl, by rintro k ⟨⟩, by rintro k k' l l' - ⟨⟩⟩, fun k hk => hk, fun k _ => ⟨rfl, rfl⟩,
      fun k hk => (hno k hk).elim⟩
  · split
    · next hfd =>
      rw [Bool.not_eq_true'] at hfd
      refine ⟨⟨le_rfl, by rintro k ⟨⟩, by rintro k k' l l' - ⟨⟩⟩, fun k hk => ?_, fun k hk => ?_,
        fun k hk => ⟨fun h => ?_, fun _ => .inr ?_⟩⟩
      · exact (Bool.and_eq_true _ _ ▸ hk).1
      · exact ⟨rfl, by simp [hk]⟩
      · exact absurd (hfd.symm.trans h.1) (by simp)
      · simp [hk]
    · next hfd =>
      rw [Bool.not_eq_true', Bool.not_eq_false] at hfd
      set p₀ : Plan :=
        { archive := c.archiveMask, attached := fun _ => false, attachRaw := fun _ => false
          loc := fun _ => none, fd := File.empty, offset := 0 }
      have hran := @attachAll_ran c w p₀ kinds nodup_kinds
        ⟨le_rfl, by rintro k ⟨⟩, by rintro k k' l l' - ⟨⟩⟩ ⟨rfl, rfl⟩ fun _ _ => rfl
      refine ⟨hran.fine, fun k hk => ?_, fun k hk => hran.rest k (.inr hk), fun k hk => ⟨?_, ?_⟩⟩
      · by_cases hw : c.wants k = true
        · exact hmask k hw
        · rw [← hk]
          exact (hran.rest k (.inr (Bool.eq_false_iff.2 hw))).2.symm
      · rintro ⟨-, hstop⟩
        obtain ⟨h1, h2⟩ := (hran.done k (mem_kinds k) hk).1 hstop
        exact ⟨h1, h2.trans (hmask k hk)⟩
      · intro hno
        exact (hran.done k (mem_kinds k) hk).2 fun hstop => hno ⟨hfd, hstop⟩

/-! ### The record -/

theorem members_attach {l : Loc} (body : Bool) (h : l.unavailable = none) :
    (locatorMembers l body .attach).lookup "store" = some (.quoted "attach") ∧
      (locatorMembers l body .attach).lookup "offset" = some (.number l.offset) ∧
      (locatorMembers l body .attach).lookup "size" = some (.number l.size) := by
  unfold locatorMembers
  rw [h]
  cases body <;> cases l.sha256 <;> simp [List.lookup]

theorem members_not_attach (l : Loc) (body : Bool) {mode : Mode} (hm : mode ≠ .attach) :
    (locatorMembers l body mode).lookup "store" ≠ some (.quoted "attach") := by
  unfold locatorMembers
  cases l.unavailable with
  | some reason => cases body <;> simp [List.lookup]
  | none =>
    cases mode with
    | attach => exact absurd rfl hm
    | bare => cases body <;> cases l.sha256 <;> simp [List.lookup]
    | address =>
      cases body <;> cases l.sha256 <;> cases l.stored <;> simp [List.lookup] <;>
        split <;> simp [List.lookup] <;> split <;> simp [List.lookup]

theorem members_address {l : Loc} (body : Bool) (h : l.unavailable = none) (hs : l.stored = true) :
    (locatorMembers l body .address).lookup "key" = some (.quoted l.key) := by
  unfold locatorMembers
  rw [h, hs]
  cases body <;> cases l.sha256 <;> simp [List.lookup]

/-- The locator that is written for an object. -/
def written (c : Ctx) (w : World) (k : Kind) : Option Locator :=
  locatorWrite (auditLocator c (attachPrepare c w) k) (k = .body)
    (if (attachPrepare c w).attached k then .attach
      else if (attachPrepare c w).archive k then .address else .bare)

theorem auditStore_written {sect : Kind → Option Locator} (h : auditStore c w = some sect) :
    sect = written c w := by
  unfold auditStore at h
  split at h
  · exact (Option.some.inj h).symm
  · cases h

theorem auditStore_of_archive (h : (attachPrepare c w).archive k = true) :
    auditStore c w = some (written c w) := by
  have hmask := (prepare_archive c w).2.1 k h
  have hany : kinds.any c.archiveMask = true := List.any_eq_true.2 ⟨k, mem_kinds k, hmask⟩
  unfold auditStore
  rw [hany]
  rfl

/-- An object is attached if and only if its locator says so; the locator is its span. -/
theorem written_attached (h : (attachPrepare c w).attached k = true) :
    ∃ l loc, written c w k = some l ∧ (attachPrepare c w).loc k = some loc ∧
      l "store" = some (.quoted "attach") ∧ l "offset" = some (.number loc.offset) ∧
      l "size" = some (.number loc.size) := by
  obtain ⟨loc, hloc, hav, -, -⟩ := (prepare_archive c w).1.span k h
  obtain ⟨h1, h2, h3⟩ := members_attach (decide (k = .body)) hav
  refine ⟨fun name => (locatorMembers loc (decide (k = .body)) .attach).lookup name, loc, ?_, hloc,
    h1, h2, h3⟩
  unfold written auditLocator locatorWrite
  rw [if_pos h, if_pos h, hloc]
  rfl

theorem written_not_attached {l : Locator} (h : (attachPrepare c w).attached k = false)
    (hl : written c w k = some l) : l "store" ≠ some (.quoted "attach") := by
  unfold written locatorWrite at hl
  rw [h] at hl
  obtain ⟨loc, -, rfl⟩ := Option.map_eq_some_iff.1 hl
  refine members_not_attach loc _ ?_
  simp only [Bool.false_eq_true, if_false]
  split <;> simp

theorem attached_of_written {l : Locator} (hl : written c w k = some l)
    (hs : l "store" = some (.quoted "attach")) : (attachPrepare c w).attached k = true := by
  by_contra h
  exact written_not_attached (Bool.eq_false_iff.2 h) hl hs

/-- The agent gets the bytes of every object that is attached. -/
theorem attachments_written (c : Ctx) (w : World) (ks : List Kind) (hks : ks.Nodup) :
    ∃ out, attachments (written c w) (some (attachPrepare c w).fd.data) ks = some out ∧
      ∀ k ∈ ks, (attachPrepare c w).attached k = true → out k = some (collected c k) := by
  induction ks with
  | nil => exact ⟨_, rfl, by rintro k ⟨⟩⟩
  | cons k ks ih =>
    obtain ⟨hk, hks⟩ := List.nodup_cons.1 hks
    obtain ⟨out, hout, hall⟩ := ih hks
    cases ha : (attachPrepare c w).attached k with
    | false =>
      have hrest : ∀ k' ∈ k :: ks, (attachPrepare c w).attached k' = true →
          out k' = some (collected c k') := by
        intro k' hk' ha'
        refine hall k' ((List.mem_cons.1 hk').resolve_left ?_) ha'
        rintro rfl
        exact absurd (ha.symm.trans ha') (by simp)
      refine ⟨out, ?_, hrest⟩
      rw [attachments]
      cases hl : written c w k with
      | none => exact hout
      | some l =>
        simp only
        rw [if_pos (written_not_attached ha hl)]
        exact hout
    | true =>
      obtain ⟨l, loc, hl, hloc, hstore, hoffset, hsize⟩ := written_attached ha
      obtain ⟨loc', hloc', -, hle, hspan⟩ := (prepare_archive c w).1.span k ha
      obtain rfl := Option.some.inj (hloc'.symm.trans hloc)
      have hbound := (prepare_archive c w).1.bound
      refine ⟨Function.update out k (some (collected c k)), ?_, fun k' hk' ha' => ?_⟩
      · rw [attachments, hl]
        simp only
        rw [if_neg (not_not.2 hstore), hoffset, hsize, if_neg, hout]
        · simp only [numberOf, Int.toNat_natCast, Option.map_some, hspan]
        · simp only [numberOf]
          omega
      · by_cases hne : k' = k
        · rw [hne]
          exact Function.update_self _ _ _
        · rw [Function.update_of_ne hne]
          exact hall k' ((List.mem_cons.1 hk').resolve_left hne) ha'

/-! ### What the agent finds -/

/-- The locator is a span of the file with the bytes of the object, apart from the spans of the
others, and the agent takes them out of the file. -/
def Rides (c : Ctx) (w : World) (sect : Kind → Option Locator) (k : Kind) (l : Locator) : Prop :=
  ∃ (offset size : ℕ) (file : Bytes), l "store" = some (.quoted "attach") ∧
    l "offset" = some (.number offset) ∧ l "size" = some (.number size) ∧
    (attachPrepare c w).file = some file ∧ offset + size ≤ file.length ∧
    (file.drop offset).take size = collected c k ∧
    (∀ k' l', k' ≠ k → sect k' = some l' → l' "store" = some (.quoted "attach") →
      ∃ offset' size' : ℕ, l' "offset" = some (.number offset') ∧ l' "size" = some (.number size') ∧
        (offset + size ≤ offset' ∨ offset' + size' ≤ offset)) ∧
    ∃ out, attachments sect (some file) kinds = some out ∧ out k = some (collected c k)

/-- The exchange serves the object, and the locator has its key. -/
def Served (c : Ctx) (k : Kind) (l : Locator) : Prop :=
  c.storeServes k = true ∧ ∃ key, key ≠ "" ∧ l "key" = some (.quoted key)

def Found (c : Ctx) (w : World) (k : Kind) : Prop :=
  ∃ sect l, auditStore c w = some sect ∧ sect k = some l ∧ (Rides c w sect k l ∨ Served c k l)

theorem found_of_attached (harch : (attachPrepare c w).archive k = true)
    (ha : (attachPrepare c w).attached k = true) : Found c w k := by
  obtain ⟨l, loc, hl, hloc, hstore, hoffset, hsize⟩ := written_attached ha
  have hfine := (prepare_archive c w).1
  obtain ⟨loc', hloc', -, hle, hspan⟩ := hfine.span k ha
  obtain rfl := Option.some.inj (hloc'.symm.trans hloc)
  obtain ⟨out, hout, hall⟩ := attachments_written c w kinds nodup_kinds
  have hfile : (attachPrepare c w).file = some (attachPrepare c w).fd.data :=
    if_pos (List.any_eq_true.2 ⟨k, mem_kinds k, ha⟩)
  refine ⟨_, l, auditStore_of_archive harch, hl, .inl ⟨_, _, _, hstore, hoffset, hsize, hfile,
    hle.trans hfine.bound, hspan, fun k' l' hne hl' hs' => ?_, out, hout, hall k (mem_kinds k) ha⟩⟩
  have ha' := attached_of_written hl' hs'
  obtain ⟨l'', loc₂, hl'', hloc₂, -, hoffset₂, hsize₂⟩ := written_attached ha'
  obtain rfl := Option.some.inj (hl''.symm.trans hl')
  exact ⟨_, _, hoffset₂, hsize₂, hfine.apart k k' loc' loc₂ (Ne.symm hne) ha ha' hloc hloc₂⟩

theorem found_of_serves (harch : (attachPrepare c w).archive k = true)
    (ha : (attachPrepare c w).attached k = false) (hs : c.storeServes k = true) : Found c w k := by
  have hplaced : ∃ loc, c.placed k = some loc ∧ loc.unavailable = none ∧ loc.key ≠ "" := by
    unfold Ctx.storeServes at hs
    split at hs
    · cases hs
    · next loc hloc =>
      refine ⟨loc, hloc, ?_⟩
      split at hs
      · cases hs
      · next hno =>
        simp only [Bool.or_eq_true, Option.isSome_iff_ne_none, decide_eq_true_eq, not_or,
          not_not] at hno
        exact hno
  obtain ⟨loc, hloc, hav, hkey⟩ := hplaced
  refine ⟨_, fun name => (locatorMembers loc (decide (k = .body)) .address).lookup name,
    auditStore_of_archive harch, ?_, .inr ⟨hs, loc.key, hkey,
    members_address (decide (k = .body)) hav (loc.keyed hkey)⟩⟩
  unfold written auditLocator locatorWrite
  rw [ha, harch, hloc]
  rfl

/-- An object after the one at which the loop was left stays in the archive and cannot be found. -/
theorem not_found_of_stops {k₀ : Kind} (hfd : w.memfd = true) (hs : Stops c w k₀)
    (hk : c.wants k = true) (hsub : [k₀, k].Sublist kinds) :
    (attachPrepare c w).archive k = true ∧ ¬ Found c w k := by
  obtain ⟨ha, harch⟩ := ((prepare_archive c w).2.2.2 k hk).1 ⟨hfd, k₀, hs, hsub⟩
  refine ⟨harch, ?_⟩
  rintro ⟨sect, l, hsect, hl, hfound⟩
  rw [auditStore_written hsect] at hl
  rcases hfound with ⟨_, _, _, hstore, -⟩ | ⟨hserves, -⟩
  · exact written_not_attached ha hl hstore
  · simp [Ctx.wants, hserves] at hk

/-- **The agent finds every object of the archive**, if and only if the loop was not left with
objects still to be attached: no object whose attaching failed was followed by a failure to drop its
remains from the file. -/
theorem found_iff (c : Ctx) (w : World) :
    (∀ k, (attachPrepare c w).archive k = true → Found c w k) ↔
      (w.memfd = true → ∀ k₀ k, c.wants k₀ = true → c.wants k = true → [k₀, k].Sublist kinds →
        fails c w k₀ = true → w.truncate k₀ = true ∧ w.seek k₀ = true) := by
  obtain ⟨-, -, hrest, hwant⟩ := prepare_archive c w
  constructor
  · intro h hfd k₀ k hk₀ hk hsub hfail
    by_contra hno
    obtain ⟨harch, hlost⟩ := not_found_of_stops hfd ⟨hk₀, hfail, hno⟩ hk hsub
    exact hlost (h k harch)
  · intro h k harch
    by_cases hk : c.wants k = true
    · have hno : ¬ (w.memfd = true ∧ ∃ k₀, Stops c w k₀ ∧ [k₀, k].Sublist kinds) := by
        rintro ⟨hfd, k₀, ⟨hk₀, hfail, hdrop⟩, hsub⟩
        exact hdrop (h hfd k₀ k hk₀ hk hsub hfail)
      rcases (hwant k hk).2 hno with ha | ha
      · exact found_of_attached harch ha
      · exact absurd (ha.symm.trans harch) (by simp)
    · obtain ⟨ha, hm⟩ := hrest k (Bool.eq_false_iff.2 hk)
      refine found_of_serves harch ha ?_
      rw [Ctx.wants, ← hm, harch] at hk
      simpa using hk

/-- A request with headers and a query, both to be archived, and nothing in the exchange. -/
def twoObjects : Ctx :=
  { phase := .request, auditEnabled := true, logged := true, frameWanted := false, verdict := .allow
    ovr :=
      { set := .none, when := none, named := fun _ => false, off := fun _ => false
        limit := fun _ => none, source := fun _ => .none }
    shoot :=
      { archive := fun _ => true, archiveWhen := fun _ _ => true, archiveLimit := fun _ => 0
        archiveOriginal := fun _ => false, captureMask := fun _ => [], captureDeny := fun _ => [] }
    bodyLimit := 0, trim := false, placed := fun _ => none, metaTruncated := fun _ => false
    storeBlob := fun _ => [], bodyPlacedLen := 0, bodyReady := false, bodyDiscarded := false
    source := [], collect := fun _ _ => some [120], encoding := "identity", rspLast := false
    rspJournal := false, rspJournalTotal := 0, contentLength := 0, sha256 := fun _ => []
    settled := none }

/-- The headers cannot be written, and the file cannot be truncated. -/
def brokenFile : World :=
  { memfd := true, alloc := fun _ => true
    writes := fun k => if k = .headers then [.failed] else []
    reads := [], truncate := fun _ => false, seek := fun _ => true }

/-- The query is named in the archive, and the agent cannot find it. -/
theorem args_not_found : (attachPrepare twoObjects brokenFile).archive .args = true ∧
    ¬ Found twoObjects brokenFile .args :=
  @not_found_of_stops twoObjects brokenFile .args .headers rfl ⟨rfl, rfl, by decide⟩ rfl (by decide)

end Attach
