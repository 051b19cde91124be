import PlacitumNode.Dataset.Live

/-!
# The books of the live overlay

The summaries beside the tree are kept by every operation on its own: `livePut` adds to them,
`liveDelete` takes from them, and a keeper's new hash replaces an old one in the XOR.

* `Books`: the tree is ordered without duplicates and the summaries are those of its nodes;
* `Books.insert`, `Books.modify`, `Books.delete`: the three ways the tree changes;
* `exact_liveStep`: every operation keeps the books;
* `live_books_exact`: they hold after any sequence of operations.
-/

namespace Dataset

open Octets Run SearchTree

/-! ### The summaries of a list of nodes -/

/-- The XOR of the hashes. -/
def xorAll (l : List LiveNode) : UInt64 := l.foldr (fun ln x => ln.h ^^^ x) 0

/-- The number of networks of a family and a prefix length. -/
def lensOf (type : DsType) (l : List LiveNode) (fam : Fam) (bits : ℕ) : ℕ :=
  l.countP fun ln => liveBits type ln.data = .ok fam bits

@[simp] theorem xorAll_cons (ln : LiveNode) (l : List LiveNode) :
    xorAll (ln :: l) = ln.h ^^^ xorAll l := rfl

theorem xorAll_perm {l m : List LiveNode} (h : l.Perm m) : xorAll l = xorAll m := by
  have hcomm : LeftCommutative fun (ln : LiveNode) (x : UInt64) => ln.h ^^^ x :=
    ⟨fun a b x => by rw [← UInt64.xor_assoc, ← UInt64.xor_assoc, UInt64.xor_comm a.h]⟩
  exact h.foldr_eq 0

theorem lensOf_perm {l m : List LiveNode} (h : l.Perm m) (type : DsType) (fam : Fam) (bits : ℕ) :
    lensOf type l fam bits = lensOf type m fam bits := h.countP_eq _

theorem lensOf_cons (type : DsType) (ln : LiveNode) (l : List LiveNode) (fam : Fam) (bits : ℕ) :
    lensOf type (ln :: l) fam bits =
      lensOf type l fam bits + if liveBits type ln.data = .ok fam bits then 1 else 0 := by
  simp [lensOf, List.countP_cons]

section

variable (crc : Bytes → ℕ)

/-- A node that `livePut` may have made. -/
structure Keyed (type : DsType) (ln : LiveNode) : Prop where
  hash_eq : ln.hash = crc ln.data
  pos : ln.data.length ≠ 0
  short : ln.data.length ≤ entryMax
  valid : liveBits type ln.data ≠ .error

/-- The nodes are distinct and in order, and the summaries are those of the nodes. -/
structure Books (type : DsType) (liveHash : UInt64) (live : Live) : Prop where
  ordered : Bst.Sorted liveCmp LiveNode.id live.tree
  keyed : ∀ ln ∈ live.tree.toList, Keyed crc type ln
  n_eq : live.n = live.tree.toList.length
  hash_eq : liveHash = xorAll live.tree.toList
  lens_eq : ∀ fam bits, live.lens fam bits = lensOf type live.tree.toList fam bits

/-- The books of a slot; without an overlay there is nothing in the XOR. -/
def Exact (slot : Slot) : Prop :=
  match slot.live with
  | none => slot.liveHash = 0
  | some live => Books crc slot.type slot.liveHash live

end

section

variable {crc : Bytes → ℕ} {bal : Balance LiveNode.id} {type : DsType} {hash : UInt64} {live : Live}

/-- The books of one list are those of another with the same nodes. -/
theorem Books.of_perm {l : List LiveNode} {live' : Live} {hash' : UInt64}
    (hord : Bst.Sorted liveCmp LiveNode.id live'.tree) (hp : live'.tree.toList.Perm l)
    (hkey : ∀ ln ∈ l, Keyed crc type ln) (hn : live'.n = l.length) (hh : hash' = xorAll l)
    (hl : ∀ fam bits, live'.lens fam bits = lensOf type l fam bits) : Books crc type hash' live' where
  ordered := hord
  keyed ln hln := hkey ln (hp.mem_iff.1 hln)
  n_eq := hn.trans hp.length_eq.symm
  hash_eq := hh.trans (xorAll_perm hp).symm
  lens_eq fam bits := (hl fam bits).trans (lensOf_perm hp type fam bits).symm

theorem liveLookup_some (hb : Books crc type hash live) {key : Bytes} {ln : LiveNode}
    (h : liveLookup crc live key = some ln) : ln ∈ live.tree.toList ∧ ln.data = key := by
  obtain ⟨hmem, hid⟩ := (search_eq_some hb.ordered).1 h
  exact ⟨hmem, congrArg Prod.snd hid⟩

/-- **The lookup answers** whether there is a node with the key. -/
theorem liveLookup_eq_some (hb : Books crc type hash live) {key : Bytes} {ln : LiveNode} :
    liveLookup crc live key = some ln ↔ ln ∈ live.tree.toList ∧ ln.data = key := by
  constructor
  · exact liveLookup_some hb
  · rintro ⟨hmem, rfl⟩
    refine (search_eq_some hb.ordered).2 ⟨hmem, ?_⟩
    rw [LiveNode.id, (hb.keyed ln hmem).hash_eq]

theorem Books.insert (hb : Books crc type hash live) {ln : LiveNode} (hkey : Keyed crc type ln)
    (hnew : liveLookup crc live ln.data = none) {live' : Live}
    (ht : live'.tree = bal.fix (live.tree.insert liveCmp LiveNode.id ln)) (hn : live'.n = live.n + 1)
    (hl : ∀ fam bits, live'.lens fam bits =
      live.lens fam bits + if liveBits type ln.data = .ok fam bits then 1 else 0) :
    Books crc type (hash ^^^ ln.h) live' := by
  have hfresh : ∀ a ∈ live.tree.toList, a.id ≠ ln.id := by
    have hid : ln.id = (crc ln.data, ln.data) := by rw [LiveNode.id, hkey.hash_eq]
    rw [hid]
    exact (search_eq_none hb.ordered).1 hnew
  have hp : live'.tree.toList.Perm (ln :: live.tree.toList) := by
    rw [ht, bal.toList_fix]
    exact insert_perm liveCmp LiveNode.id ln live.tree
  refine Books.of_perm ?_ hp ?_ ?_ ?_ ?_
  · rw [ht]
    exact Sorted.fix bal (Sorted.insert hb.ordered hfresh)
  · intro a ha
    rcases List.mem_cons.1 ha with rfl | ha
    · exact hkey
    · exact hb.keyed a ha
  · rw [hn, hb.n_eq, List.length_cons]
  · rw [hb.hash_eq, xorAll_cons, UInt64.xor_comm]
  · intro fam bits
    rw [hl, hb.lens_eq, lensOf_cons]

theorem Books.modify (hb : Books crc type hash live) {ln : LiveNode} (hln : ln ∈ live.tree.toList)
    {f : LiveNode → LiveNode} (hid : ∀ a, (f a).hash = a.hash ∧ (f a).data = a.data) :
    Books crc type (hash ^^^ (ln.h ^^^ (f ln).h))
      { live with tree := live.tree.modify LiveNode.id ln.id f } := by
  have hid' : ∀ a, (f a).id = a.id := fun a => by
    rw [LiveNode.id, LiveNode.id, (hid a).1, (hid a).2]
  have hold := filter_perm hb.ordered hln
  have hp := modify_perm (f := f) hb.ordered hln
  have hbits : liveBits type (f ln).data = liveBits type ln.data := by rw [(hid ln).2]
  refine Books.of_perm (Sorted.modify hb.ordered hid') hp ?_ ?_ ?_ ?_
  · intro a ha
    rcases List.mem_cons.1 ha with rfl | ha
    · obtain ⟨h1, h2, h3, h4⟩ := hb.keyed ln hln
      rw [← (hid ln).1, ← (hid ln).2] at h1
      rw [← (hid ln).2] at h2 h3 h4
      exact ⟨h1, h2, h3, h4⟩
    · exact hb.keyed a (List.mem_filter.1 ha).1
  · rw [hb.n_eq, hold.length_eq]
    rfl
  · rw [hb.hash_eq, xorAll_perm hold, xorAll_cons, xorAll_cons]
    generalize xorAll (live.tree.toList.filter _) = x
    rw [UInt64.xor_comm ln.h x, UInt64.xor_assoc, ← UInt64.xor_assoc ln.h, UInt64.xor_self,
      UInt64.zero_xor, UInt64.xor_comm]
  · intro fam bits
    rw [hb.lens_eq, lensOf_perm hold, lensOf_cons, lensOf_cons, hbits]

theorem Books.delete (hb : Books crc type hash live) {ln : LiveNode} (hln : ln ∈ live.tree.toList)
    {live' : Live} (ht : live'.tree = bal.delete ln.id live.tree) (hn : live'.n = live.n - 1)
    (hl : ∀ fam bits, live'.lens fam bits =
      live.lens fam bits - if liveBits type ln.data = .ok fam bits then 1 else 0) :
    Books crc type (hash ^^^ ln.h) live' := by
  have hp := delete_perm bal hb.ordered hln
  have hmem : ∀ a ∈ live'.tree.toList, a ∈ live.tree.toList := by
    intro a ha
    rw [ht] at ha
    exact hp.mem_iff.2 (List.mem_cons_of_mem ln ha)
  rw [← ht] at hp
  refine Books.of_perm ?_ (.refl live'.tree.toList) (fun a ha => hb.keyed a (hmem a ha)) ?_ ?_ ?_
  · rw [ht]
    exact Sorted.delete bal hb.ordered
  · rw [hn, hb.n_eq, hp.length_eq, List.length_cons, Nat.add_sub_cancel]
  · rw [hb.hash_eq, xorAll_perm hp, xorAll_cons, UInt64.xor_comm ln.h, UInt64.xor_assoc,
      UInt64.xor_self, UInt64.xor_zero]
  · intro fam bits
    rw [hl, hb.lens_eq, lensOf_perm hp, lensOf_cons, Nat.add_sub_cancel]

end

/-! ### What a put does -/

/-- A local ban would end before the entry that stands. -/
def Shorter (expires : ℕ) (ln : LiveNode) : Prop :=
  expires ≠ 0 ∧ ln.expires ≠ 0 ∧ expires ≤ ln.expires

instance (expires : ℕ) (ln : LiveNode) : Decidable (Shorter expires ln) := by
  unfold Shorter; infer_instance

/-- The answer to a put over a standing entry and the expiry it leaves: a keeper's entry replaces
it, a local ban only lengthens it. -/
def Renews (expires : ℕ) (h : UInt64) (ln : LiveNode) (rc : Rc) (left : ℕ) : Prop :=
  h ≠ 0 ∧ left = expires ∧ (rc = .declined ∨ rc = .ok) ∨
    h = 0 ∧ Shorter expires ln ∧ left = ln.expires ∧ rc = .declined ∨
    h = 0 ∧ ¬ Shorter expires ln ∧ left = expires ∧ rc = .ok

section

variable (crc : Bytes → ℕ) (bal : Balance LiveNode.id)

/-- The ways a put ends. -/
inductive Put (slot : Slot) (key : Bytes) (expires : ℕ) (h : UInt64) (gen : ℕ) (room : Bool × Bool) :
    Rc → Slot → Prop
  | refused : Put slot key expires h gen room .error slot
  | unstored {live : Live} {rc : Rc} (he : liveEnsure room.1 slot = some live)
    (hnone : liveLookup crc live key = none) (hrc : rc = .busy ∨ rc = .error) :
    Put slot key expires h gen room rc { slot with live := some live }
  | renewed {live : Live} {ln : LiveNode} {f : LiveNode → LiveNode} {rc : Rc} {left : ℕ}
    (he : liveEnsure room.1 slot = some live) (hsome : liveLookup crc live key = some ln)
    (hid : ∀ a, (f a).hash = a.hash ∧ (f a).data = a.data)
    (hf : f ln = { ln with gen := gen, h := if h = 0 then ln.h else h, expires := left })
    (hx : Renews expires h ln rc left) :
    Put slot key expires h gen room rc { slot with
      live := some { live with tree := live.tree.modify LiveNode.id ln.id f }
      liveHash := slot.liveHash ^^^ (ln.h ^^^ (f ln).h) }
  | stored {live live' : Live} (he : liveEnsure room.1 slot = some live)
    (hnone : liveLookup crc live key = none) (hroom : live.n < live.max)
    (hkey : Keyed crc slot.type ⟨crc key, key, gen, expires, h⟩)
    (ht : live'.tree = bal.fix (live.tree.insert liveCmp LiveNode.id ⟨crc key, key, gen, expires, h⟩))
    (hn : live'.n = live.n + 1) (hmax : live'.max = live.max)
    (hl : ∀ fam bits, live'.lens fam bits =
      live.lens fam bits + if liveBits slot.type key = .ok fam bits then 1 else 0) :
    Put slot key expires h gen room .ok
      { slot with live := some live', liveHash := slot.liveHash ^^^ h }

theorem put_livePut (slot : Slot) (key : Bytes) (expires : ℕ) (h : UInt64) (gen : ℕ)
    (room : Bool × Bool) :
    Put crc bal slot key expires h gen room (livePut crc bal slot key expires h gen room).1
      (livePut crc bal slot key expires h gen room).2 := by
  unfold livePut
  by_cases hlen : key.length = 0 ∨ key.length > entryMax
  · rw [if_pos hlen]
    exact .refused
  rw [if_neg hlen]
  by_cases hbits : liveBits slot.type key = .error
  · simp only [hbits, if_true]
    exact .refused
  simp only [if_neg hbits]
  cases he : liveEnsure room.1 slot with
  | none => exact .refused
  | some live =>
    simp only
    cases hfind : liveLookup crc live key with
    | some ln =>
      simp only
      have hput {rc : Rc} {left : ℕ} {f : LiveNode → LiveNode} {hash : UInt64}
          (hid : ∀ a, (f a).hash = a.hash ∧ (f a).data = a.data)
          (hf : f ln = { ln with gen := gen, h := if h = 0 then ln.h else h, expires := left })
          (hhash : hash = slot.liveHash ^^^ (ln.h ^^^ (f ln).h)) (hx : Renews expires h ln rc left) :
          Put crc bal slot key expires h gen room rc { slot with
            live := some { live with tree := live.tree.modify LiveNode.id ln.id f }
            liveHash := hash } := by
        subst hhash
        exact .renewed he hfind hid hf hx
      by_cases hh : h = 0
      · rw [if_neg (not_not.2 hh)]
        have hsame : slot.liveHash = slot.liveHash ^^^ (ln.h ^^^ ln.h) := by simp
        split
        · next hs => exact hput (fun a => ⟨rfl, rfl⟩) (by simp [hh]) hsame (.inr (.inl ⟨hh, hs, rfl, rfl⟩))
        · next hs => exact hput (fun a => ⟨rfl, rfl⟩) (by simp [hh]) hsame (.inr (.inr ⟨hh, hs, rfl, rfl⟩))
      · rw [if_pos hh]
        have hxor : (if ln.h ≠ h then { slot with
              live := some live, liveHash := slot.liveHash ^^^ (ln.h ^^^ h) }
            else { slot with live := some live }) =
            { slot with live := some live, liveHash := slot.liveHash ^^^ (ln.h ^^^ h) } := by
          split
          · rfl
          · next heq => simp [not_not.1 heq]
        rw [hxor]
        split
        · next hexp =>
          exact hput (fun a => ⟨rfl, rfl⟩) (by simp [hh, hexp]) rfl
            (.inl ⟨hh, hexp, .inl rfl⟩)
        · exact hput (fun a => ⟨rfl, rfl⟩) (by simp [hh]) rfl (.inl ⟨hh, rfl, .inr rfl⟩)
    | none =>
      simp only
      split
      · exact .unstored he hfind (.inl rfl)
      next hroom =>
      split
      · exact .unstored he hfind (.inr rfl)
      obtain ⟨hpos, hshort⟩ := not_or.1 hlen
      refine .stored he hfind (by omega) ⟨rfl, hpos, Nat.le_of_not_gt hshort, hbits⟩ ?_ ?_ ?_ ?_
      all_goals cases hb : liveBits slot.type key
      all_goals try rfl
      all_goals intro fam bits
      · simp
      · exact absurd hb hbits
      · simp only [Live.count, Bits.ok.injEq]
        split
        · next heq => simp [heq.1, heq.2]
        · next hne => rw [if_neg fun h => hne ⟨h.1.symm, h.2.symm⟩, Nat.add_zero]

end

/-! ### Every operation keeps the books -/

section

variable {crc : Bytes → ℕ} {bal : Balance LiveNode.id} {slot : Slot} {live : Live} {ln : LiveNode}

theorem Exact.books (hx : Exact crc slot) (hl : slot.live = some live) :
    Books crc slot.type slot.liveHash live := by
  unfold Exact at hx
  rwa [hl] at hx

theorem exact_some (slot : Slot) {hash : UInt64} (hb : Books crc slot.type hash live) :
    Exact crc { slot with live := some live, liveHash := hash } := hb

/-- The overlay that `liveEnsure` finds or makes has the books of the slot. -/
theorem Exact.ensure (hx : Exact crc slot) {room : Bool} (he : liveEnsure room slot = some live) :
    Books crc slot.type slot.liveHash live := by
  unfold liveEnsure at he
  cases hl : slot.live with
  | some old =>
    rw [hl] at he
    cases he
    obtain ⟨h1, h2, h3, h4, h5⟩ := hx.books hl
    exact ⟨h1, h2, h3, h4, h5⟩
  | none =>
    rw [hl] at he
    simp only at he
    split at he
    · cases he
      unfold Exact at hx
      rw [hl] at hx
      exact ⟨List.Pairwise.nil, fun ln hln => absurd hln List.not_mem_nil, rfl, hx,
        fun fam bits => rfl⟩
    · cases he

theorem liveEnsure_max {room : Bool} (he : liveEnsure room slot = some live) :
    live.max = slot.liveLimit ∧ live.n = (slot.live.map Live.n).getD 0 := by
  unfold liveEnsure at he
  cases hl : slot.live with
  | some old =>
    rw [hl] at he
    cases he
    exact ⟨rfl, rfl⟩
  | none =>
    rw [hl] at he
    simp only at he
    split at he
    · cases he
      exact ⟨rfl, rfl⟩
    · cases he

theorem exact_livePut (hx : Exact crc slot) (key : Bytes) (expires : ℕ) (h : UInt64) (gen : ℕ)
    (room : Bool × Bool) : Exact crc (livePut crc bal slot key expires h gen room).2 := by
  have hput := put_livePut crc bal slot key expires h gen room
  generalize (livePut crc bal slot key expires h gen room).1 = rc at hput
  generalize (livePut crc bal slot key expires h gen room).2 = slot' at hput ⊢
  cases hput with
  | refused => exact hx
  | unstored he => exact hx.ensure he
  | renewed he hsome hid =>
    have hb := hx.ensure he
    exact exact_some _ (hb.modify (liveLookup_some hb hsome).1 hid)
  | stored he hnone hroom hkey ht hn hmax hl =>
    exact exact_some _ ((hx.ensure he).insert hkey hnone ht hn hl)

/-- The overlay that a deletion leaves. -/
theorem liveDelete_live (bal : Balance LiveNode.id) (slot : Slot) (live : Live) (ln : LiveNode) :
    ∃ live', (liveDelete bal slot live ln).live = some live' ∧
      live'.tree = bal.delete ln.id live.tree ∧ live'.n = live.n - 1 ∧
      ∀ fam bits, live'.lens fam bits =
        live.lens fam bits - if liveBits slot.type ln.data = .ok fam bits then 1 else 0 := by
  refine ⟨_, rfl, rfl, ?_, fun fam bits => ?_⟩
  · show (if live.n > 0 then live.n - 1 else live.n) = live.n - 1
    split <;> omega
  · cases hb : liveBits slot.type ln.data with
    | declined => simp
    | error => simp
    | ok g b =>
      simp only [Bits.ok.injEq]
      by_cases heq : fam = g ∧ bits = b
      · obtain ⟨rfl, rfl⟩ := heq
        by_cases hpos : live.lens fam bits > 0
        · simp [hpos, Live.count]
        · simp [hpos]
          omega
      · have hne : ¬ (g = fam ∧ b = bits) := fun h => heq ⟨h.1.symm, h.2.symm⟩
        rw [if_neg hne, Nat.sub_zero]
        split
        · simp [Live.count, heq]
        · rfl

theorem exact_liveDelete (hx : Exact crc slot) (hl : slot.live = some live)
    (hln : ln ∈ live.tree.toList) : Exact crc (liveDelete bal slot live ln) := by
  obtain ⟨live', hlive', ht, hn, hlens⟩ := liveDelete_live bal slot live ln
  have hb := (hx.books hl).delete hln ht hn hlens
  unfold Exact
  rw [hlive']
  exact hb

theorem exact_liveDrop (hx : Exact crc slot) (key : Bytes) :
    Exact crc (liveDrop crc bal slot key).2 := by
  unfold liveDrop
  cases hl : slot.live with
  | none => exact hx
  | some live =>
    simp only
    split
    · exact hx
    cases hfind : liveLookup crc live key with
    | none => exact hx
    | some ln => exact exact_liveDelete hx hl (liveLookup_some (hx.books hl) hfind).1

theorem exact_liveMark (hx : Exact crc slot) (key : Bytes) (gen : ℕ) :
    Exact crc (liveMark crc slot key gen) := by
  unfold liveMark
  cases hl : slot.live with
  | none => exact hx
  | some live =>
    simp only
    split
    · exact hx
    cases hfind : liveLookup crc live key with
    | none => exact hx
    | some ln =>
      have hb := hx.books hl
      have hm := hb.modify (liveLookup_some hb hfind).1
        (f := fun ln => { ln with gen := gen }) fun a => ⟨rfl, rfl⟩
      simp only [UInt64.xor_self, UInt64.xor_zero] at hm
      exact hm

theorem exact_liveBegin (hx : Exact crc slot) {room : Bool} {gen : ℕ} {slot' : Slot}
    (h : liveBegin slot room = some (gen, slot')) : Exact crc slot' := by
  unfold liveBegin at h
  cases he : liveEnsure room slot with
  | none =>
    rw [he] at h
    cases h
  | some live =>
    rw [he] at h
    cases h
    obtain ⟨h1, h2, h3, h4, h5⟩ := hx.ensure he
    exact ⟨h1, h2, h3, h4, h5⟩

theorem exact_sweepLoop (gen n : ℕ) (node : Option (ℕ × Bytes)) (swept : ℕ) (hx : Exact crc slot) :
    Exact crc (sweepLoop bal gen n node swept slot).2.2 := by
  induction n generalizing node swept slot with
  | zero => exact hx
  | succ n ih =>
    cases node with
    | none => exact hx
    | some node =>
      simp only [sweepLoop]
      cases hl : slot.live with
      | none => exact hx
      | some live =>
        simp only
        cases hfind : live.tree.search liveCmp LiveNode.id node with
        | none => exact hx
        | some ln =>
          simp only
          have hln := (mem_of_search hfind).1
          split
          · exact ih _ _ (exact_liveDelete hx hl hln)
          · exact ih _ _ hx

theorem exact_liveSweep (gen batch : ℕ) (cursor : Option (ℕ × Bytes)) (hx : Exact crc slot) :
    Exact crc (liveSweep bal slot gen batch cursor).2.2.2 := by
  unfold liveSweep
  cases hl : slot.live with
  | none => exact hx
  | some live =>
    simp only
    cases hfirst : live.tree.first with
    | none => exact hx
    | some ln => exact exact_sweepLoop gen batch _ 0 hx

theorem mem_of_first {t : Bst LiveNode} (h : t.first = some ln) : ln ∈ t.toList :=
  List.mem_of_head? h

/-- **The reset leaves no node**, and keeps the books on the way. -/
theorem exact_resetLoop (bal : Balance LiveNode.id) (hx : Exact crc slot)
    (hl : slot.live = some live) {fuel : ℕ} (hfuel : live.tree.toList.length ≤ fuel) :
    ∃ live', (resetLoop bal fuel slot).live = some live' ∧ live'.tree.toList = [] := by
  induction fuel generalizing slot live with
  | zero => exact ⟨live, hl, List.eq_nil_of_length_eq_zero (Nat.le_zero.1 hfuel)⟩
  | succ fuel ih =>
    simp only [resetLoop, hl]
    cases hfirst : live.tree.first with
    | none => exact ⟨live, hl, List.head?_eq_none_iff.1 hfirst⟩
    | some ln =>
      have hln := mem_of_first hfirst
      obtain ⟨live', hlive', ht, -, -⟩ := liveDelete_live bal slot live ln
      have hlen := (delete_perm bal (hx.books hl).ordered hln).length_eq
      rw [← ht, List.length_cons] at hlen
      exact ih (exact_liveDelete hx hl hln) hlive' (by omega)

theorem exact_liveReset (hx : Exact crc slot) : Exact crc (liveReset bal slot) := by
  unfold liveReset
  cases hl : slot.live with
  | none => exact hx
  | some live =>
    obtain ⟨live', hlive', hnil⟩ := exact_resetLoop bal hx hl le_rfl
    simp only [hlive', Option.map_some]
    refine exact_some (resetLoop bal live.tree.toList.length slot) ?_
    refine ⟨?_, fun ln hln => ?_, ?_, ?_, fun fam bits => ?_⟩
    · rw [Bst.Sorted, hnil]
      exact List.Pairwise.nil
    · rw [hnil] at hln
      exact absurd hln List.not_mem_nil
    · rw [hnil]
      rfl
    · rw [hnil]
      rfl
    · rw [hnil]
      rfl

theorem exact_liveStep (hx : Exact crc slot) (op : LiveOp) : Exact crc (liveStep crc bal slot op) := by
  cases op with
  | put key expires h gen room => exact exact_livePut hx key expires h gen room
  | drop key => exact exact_liveDrop hx key
  | mark key gen => exact exact_liveMark hx key gen
  | begin room =>
    simp only [liveStep]
    cases hb : liveBegin slot room with
    | none => exact hx
    | some r => exact exact_liveBegin hx hb
  | sweep gen batch cursor => exact exact_liveSweep gen batch cursor hx
  | reset => exact exact_liveReset hx

/-- The limit of the overlay holds back a put. -/
theorem livePut_n_le (slot : Slot) (key : Bytes) (expires : ℕ) (h : UInt64) (gen : ℕ)
    (room : Bool × Bool) (hl : (livePut crc bal slot key expires h gen room).2.live = some live) :
    live.n ≤ (slot.live.map Live.n).getD 0 ∨ live.n ≤ live.max := by
  have hput := put_livePut crc bal slot key expires h gen room
  generalize (livePut crc bal slot key expires h gen room).1 = rc at hput
  generalize (livePut crc bal slot key expires h gen room).2 = slot' at hput hl
  cases hput with
  | refused =>
    rw [hl]
    exact .inl le_rfl
  | unstored he =>
    cases hl
    exact .inl (liveEnsure_max he).2.le
  | renewed he =>
    cases hl
    exact .inl (liveEnsure_max he).2.le
  | stored he hnone hroom hkey ht hn hmax =>
    cases hl
    exact .inr (by omega)

end

/-! ### The nodes of a slot -/

def Slot.nodes (slot : Slot) : List LiveNode := (slot.live.map fun live => live.tree.toList).getD []

section

variable {crc : Bytes → ℕ} {bal : Balance LiveNode.id} {slot : Slot} {live : Live} {ln : LiveNode}

theorem Slot.nodes_of (hl : slot.live = some live) : slot.nodes = live.tree.toList := by
  rw [Slot.nodes, hl]
  rfl

theorem nodes_ensure {room : Bool} (he : liveEnsure room slot = some live) :
    live.tree.toList = slot.nodes := by
  unfold liveEnsure at he
  cases hl : slot.live with
  | some old =>
    rw [hl] at he
    cases he
    exact (Slot.nodes_of hl).symm
  | none =>
    rw [hl] at he
    simp only at he
    split at he
    · cases he
      simp [Slot.nodes, hl]
    · cases he

theorem nodes_liveDelete (hl : slot.live = some live) :
    (liveDelete bal slot live ln).nodes ⊆ slot.nodes := by
  obtain ⟨live', hlive', ht, -, -⟩ := liveDelete_live bal slot live ln
  rw [Slot.nodes_of hl, Slot.nodes_of hlive', ht, bal.toList_delete]
  exact List.filter_subset_self _

theorem nodes_sweepLoop (gen n : ℕ) (node : Option (ℕ × Bytes)) (swept : ℕ) :
    (sweepLoop bal gen n node swept slot).2.2.nodes ⊆ slot.nodes := by
  induction n generalizing node swept slot with
  | zero => exact List.Subset.refl _
  | succ n ih =>
    cases node with
    | none => exact List.Subset.refl _
    | some node =>
      simp only [sweepLoop]
      cases hl : slot.live with
      | none => exact List.Subset.refl _
      | some live =>
        simp only
        cases live.tree.search liveCmp LiveNode.id node with
        | none => exact List.Subset.refl _
        | some ln =>
          simp only
          split
          · exact List.Subset.trans (ih _ _) (nodes_liveDelete hl)
          · exact ih _ _

theorem nodes_resetLoop (bal : Balance LiveNode.id) (fuel : ℕ) :
    (resetLoop bal fuel slot).nodes ⊆ slot.nodes := by
  induction fuel generalizing slot with
  | zero => exact List.Subset.refl _
  | succ fuel ih =>
    simp only [resetLoop]
    cases hl : slot.live with
    | none => exact List.Subset.refl _
    | some live =>
      simp only
      cases live.tree.first with
      | none => exact List.Subset.refl _
      | some ln => exact List.Subset.trans ih (nodes_liveDelete hl)

/-- Changing a node in place keeps the keys. -/
theorem mem_modify {k : ℕ × Bytes} {f : LiveNode → LiveNode} {t : Bst LiveNode}
    (hf : ∀ a, (f a).data = a.data) (h : ln ∈ (t.modify LiveNode.id k f).toList) :
    ∃ old ∈ t.toList, old.data = ln.data := by
  rw [Bst.modify, Bst.toList_map, List.mem_map] at h
  obtain ⟨old, hold, rfl⟩ := h
  refine ⟨old, hold, ?_⟩
  split
  · exact (hf old).symm
  · rfl

/-- **Keys come from puts**: a key of an overlay was there before, or it is put. -/
theorem data_liveStep (op : LiveOp) (h : ln ∈ (liveStep crc bal slot op).nodes) :
    (∃ old ∈ slot.nodes, old.data = ln.data) ∨
      ∃ expires h gen room, op = .put ln.data expires h gen room := by
  cases op with
  | put key expires x gen room =>
    have hput := put_livePut crc bal slot key expires x gen room
    simp only [liveStep] at h
    generalize (livePut crc bal slot key expires x gen room).1 = rc at hput
    generalize (livePut crc bal slot key expires x gen room).2 = slot' at hput h
    -- Only a put that stores makes a node, and it has the key of the put.
    cases hput with
    | refused => exact .inl ⟨ln, h, rfl⟩
    | unstored he =>
      rw [Slot.nodes_of rfl, nodes_ensure he] at h
      exact .inl ⟨ln, h, rfl⟩
    | renewed he hsome hid =>
      rw [Slot.nodes_of rfl] at h
      obtain ⟨old, hold, hdata⟩ := mem_modify (fun a => (hid a).2) h
      rw [nodes_ensure he] at hold
      exact .inl ⟨old, hold, hdata⟩
    | stored he hnone hroom hkey ht =>
      rw [Slot.nodes_of rfl, ht, bal.toList_fix,
        (insert_perm liveCmp LiveNode.id _ _).mem_iff, List.mem_cons, nodes_ensure he] at h
      rcases h with rfl | h
      · exact .inr ⟨expires, x, gen, room, rfl⟩
      · exact .inl ⟨ln, h, rfl⟩
  | drop key =>
    refine .inl ⟨ln, ?_, rfl⟩
    simp only [liveStep, liveDrop] at h
    cases hl : slot.live with
    | none => simpa only [hl] using h
    | some live =>
      simp only [hl] at h
      split at h
      · exact h
      · cases hfind : liveLookup crc live key with
        | none => simpa only [hfind] using h
        | some old =>
          simp only [hfind] at h
          exact nodes_liveDelete hl h
  | mark key gen =>
    left
    simp only [liveStep, liveMark] at h
    cases hl : slot.live with
    | none => exact ⟨ln, by simpa only [hl] using h, rfl⟩
    | some live =>
      simp only [hl] at h
      split at h
      · exact ⟨ln, h, rfl⟩
      · cases hfind : liveLookup crc live key with
        | none => exact ⟨ln, by simpa only [hfind] using h, rfl⟩
        | some old =>
          simp only [hfind] at h
          rw [Slot.nodes_of rfl] at h
          rw [Slot.nodes_of hl]
          exact mem_modify (f := fun a => { a with gen := gen }) (fun a => rfl) h
  | begin room =>
    refine .inl ⟨ln, ?_, rfl⟩
    simp only [liveStep, liveBegin] at h
    cases he : liveEnsure room slot with
    | none => simpa only [he, Option.map_none, Option.getD_none] using h
    | some live =>
      simp only [he, Option.map_some, Option.getD_some] at h
      rwa [Slot.nodes_of rfl, nodes_ensure he] at h
  | sweep gen batch cursor =>
    refine .inl ⟨ln, ?_, rfl⟩
    simp only [liveStep, liveSweep] at h
    cases hl : slot.live with
    | none => simpa only [hl] using h
    | some live =>
      simp only [hl] at h
      cases hfirst : live.tree.first with
      | none => simpa only [hfirst] using h
      | some a =>
        simp only [hfirst] at h
        exact nodes_sweepLoop gen batch _ 0 h
  | reset =>
    refine .inl ⟨ln, ?_, rfl⟩
    simp only [liveStep, liveReset] at h
    cases hl : slot.live with
    | none => simpa only [hl] using h
    | some live =>
      simp only [hl] at h
      refine nodes_resetLoop bal live.tree.toList.length ?_
      rw [Slot.nodes, Option.map_map] at h
      exact h

end

/-! ### What the operations leave alone -/

/-- Two slots that differ in the overlay and its XOR at most. -/
def Framed (s t : Slot) : Prop := t = { s with live := t.live, liveHash := t.liveHash }

theorem Framed.refl (s : Slot) : Framed s s := rfl

theorem Framed.trans {s t u : Slot} (h : Framed s t) (h' : Framed t u) : Framed s u := by
  unfold Framed at h h' ⊢
  rw [h', h]

section

variable {crc : Bytes → ℕ} {bal : Balance LiveNode.id} {slot : Slot}

theorem framed_livePut (key : Bytes) (expires : ℕ) (h : UInt64) (gen : ℕ) (room : Bool × Bool) :
    Framed slot (livePut crc bal slot key expires h gen room).2 := by
  have hput := put_livePut crc bal slot key expires h gen room
  generalize (livePut crc bal slot key expires h gen room).1 = rc at hput
  generalize (livePut crc bal slot key expires h gen room).2 = slot' at hput ⊢
  cases hput with
  | refused => rfl
  | unstored he => rfl
  | renewed he => rfl
  | stored he => rfl

theorem framed_liveDrop (key : Bytes) : Framed slot (liveDrop crc bal slot key).2 := by
  unfold liveDrop
  cases slot.live with
  | none => rfl
  | some live =>
    simp only
    split
    · rfl
    · cases liveLookup crc live key with
      | none => rfl
      | some ln => rfl

theorem framed_liveMark (key : Bytes) (gen : ℕ) : Framed slot (liveMark crc slot key gen) := by
  unfold liveMark
  cases slot.live with
  | none => rfl
  | some live =>
    simp only
    split
    · rfl
    · cases liveLookup crc live key with
      | none => rfl
      | some ln => rfl

theorem framed_liveBegin {room : Bool} {gen : ℕ} {slot' : Slot}
    (h : liveBegin slot room = some (gen, slot')) : Framed slot slot' := by
  unfold liveBegin at h
  cases he : liveEnsure room slot with
  | none =>
    rw [he] at h
    cases h
  | some live =>
    rw [he] at h
    cases h
    rfl

theorem framed_sweepLoop (gen n : ℕ) (node : Option (ℕ × Bytes)) (swept : ℕ) :
    Framed slot (sweepLoop bal gen n node swept slot).2.2 := by
  induction n generalizing node swept slot with
  | zero => rfl
  | succ n ih =>
    cases node with
    | none => rfl
    | some node =>
      simp only [sweepLoop]
      cases slot.live with
      | none => rfl
      | some live =>
        simp only
        cases live.tree.search liveCmp LiveNode.id node with
        | none => rfl
        | some ln =>
          simp only
          split
          · exact Framed.trans (t := liveDelete bal slot live ln) rfl (ih _ _)
          · exact ih _ _

theorem framed_liveSweep (gen batch : ℕ) (cursor : Option (ℕ × Bytes)) :
    Framed slot (liveSweep bal slot gen batch cursor).2.2.2 := by
  unfold liveSweep
  cases slot.live with
  | none => rfl
  | some live =>
    simp only
    cases live.tree.first with
    | none => rfl
    | some ln => exact framed_sweepLoop gen batch _ 0

theorem framed_resetLoop (fuel : ℕ) : Framed slot (resetLoop bal fuel slot) := by
  induction fuel generalizing slot with
  | zero => rfl
  | succ fuel ih =>
    simp only [resetLoop]
    cases slot.live with
    | none => rfl
    | some live =>
      simp only
      cases live.tree.first with
      | none => rfl
      | some ln => exact Framed.trans (t := liveDelete bal slot live ln) rfl ih

/-- Every operation leaves the rest of the slot alone. -/
theorem framed_liveStep (op : LiveOp) : Framed slot (liveStep crc bal slot op) := by
  cases op with
  | put key expires h gen room => exact framed_livePut key expires h gen room
  | drop key => exact framed_liveDrop key
  | mark key gen => exact framed_liveMark key gen
  | begin room =>
    simp only [liveStep]
    cases hb : liveBegin slot room with
    | none => rfl
    | some r => exact framed_liveBegin hb
  | sweep gen batch cursor => exact framed_liveSweep gen batch cursor
  | reset =>
    simp only [liveStep, liveReset]
    cases slot.live with
    | none => rfl
    | some live =>
      exact Framed.trans (t := resetLoop bal live.tree.toList.length slot) (framed_resetLoop _) rfl

end

/-- The slot before its overlay is made. -/
def Slot.bare (slot : Slot) : Slot := { slot with live := none, liveHash := 0 }

/-- **The overlay keeps exact books.**  After any sequence of operations the nodes are distinct and
in order and every summary is that of the nodes, and a further put does not carry the number of
entries past the limit. -/
theorem live_books_exact (crc : Bytes → ℕ) (bal : Balance LiveNode.id) (slot : Slot)
    (ops : List LiveOp) :
    Exact crc (runFrom (liveStep crc bal) slot.bare ops) ∧
      ∀ key expires h gen room live,
        (livePut crc bal (runFrom (liveStep crc bal) slot.bare ops) key expires h gen room).2.live =
            some live →
          live.n ≤ ((runFrom (liveStep crc bal) slot.bare ops).live.map Live.n).getD 0 ∨
            live.n ≤ live.max := by
  constructor
  · have h0 : Exact crc slot.bare := rfl
    exact invariant_always (fun s op (hs : Exact crc s) => exact_liveStep hs op) ops h0
  · intro key expires h gen room live hl
    exact livePut_n_le _ key expires h gen room hl

end Dataset
