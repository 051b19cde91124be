import PlacitumNode.Dataset.Books
import PlacitumNode.Dataset.Cidr
import PlacitumNode.Rate.Account

/-!
# Addresses in the live overlay

`ngx_http_waf_ds_live_probe` looks an address up in an overlay of networks: for every prefix length
of which there is a network, it cuts the address to the prefix and looks for that key.

* `probeKey`, `probeLoop`, `liveProbe`: the probe;
* `networkOf`: the network of a key;
* `probeKey_eq_iff`: a key without host bits is the probe's key exactly for the addresses in its
  network;
* `live_probe_is_membership`: the probe finds the networks of the unexpired nodes, and agrees with
  the lookup in an internal set of them.
-/

namespace Dataset

open Octets Framing Run SearchTree

/-! ### The probe -/

/-- The bytes of an address of the family. -/
def Fam.alen : Fam → ℕ
  | .v4 => 4
  | .v6 => 16

/-- The first byte of a key of the family. -/
def Fam.tag : Fam → UInt8
  | .v4 => 4
  | .v6 => 6

def Addr.fam : Addr → Fam
  | .v4 _ => .v4
  | .v6 _ => .v6

def Addr.bytes : Addr → Bytes
  | .v4 a => a.1
  | .v6 a => a.1

/-- The address cut to its first `bits` bits. -/
def keepBytes : ℕ → Bytes → Bytes
  | _, [] => []
  | keep, b :: l =>
    (if keep ≥ 8 then b else if keep = 0 then 0 else b &&& (0xff <<< UInt8.ofNat (8 - keep))) ::
      keepBytes (keep - 8) l

def probeKey (addr : Addr) (bits : ℕ) : Bytes :=
  addr.fam.tag :: UInt8.ofNat bits :: keepBytes bits addr.bytes

section

variable (crc : Bytes → ℕ)

/-- One round of the probe's loop. -/
def probeAt (live : Live) (addr : Addr) (now bits : ℕ) : Bool :=
  decide (live.lens addr.fam bits ≠ 0) &&
    (liveLookup crc live (probeKey addr bits)).any fun ln => ln.lasts now

/-- The loop from a number of bits down to none. -/
def probeLoop (live : Live) (addr : Addr) (now : ℕ) : ℕ → Bool
  | 0 => probeAt crc live addr now 0
  | bits + 1 => probeAt crc live addr now (bits + 1) || probeLoop live addr now bits

def liveProbe (slot : Slot) (addr : Addr) (now : ℕ) : Bool :=
  match slot.live with
  | none => false
  | some live => probeLoop crc live addr now (8 * addr.fam.alen)

end

/-! ### Networks of keys -/

/-- The network a key stands for. -/
def networkOf (key : Bytes) : Option Network :=
  if h : key.length = 6 ∧ key.getD 0 0 = 4 ∧ key.getD 1 0 ≤ 32 then
    some (.v4 ⟨key.drop 2, by simp [h.1]⟩ (key.getD 1 0).toNat h.2.2)
  else if h : key.length = 18 ∧ key.getD 0 0 = 6 ∧ key.getD 1 0 ≤ 128 then
    some (.v6 ⟨key.drop 2, by simp [h.1]⟩ (key.getD 1 0).toNat h.2.2)
  else none

def Network.fam : Network → Fam
  | .v4 .. => .v4
  | .v6 .. => .v6

def Network.len : Network → ℕ
  | .v4 _ len _ => len
  | .v6 _ len _ => len

def Network.bytes : Network → Bytes
  | .v4 net _ _ => net.1
  | .v6 net _ _ => net.1

/-- The bits after the prefix are zero. -/
def Network.Canonical (n : Network) : Prop :=
  be n.bytes % 2 ^ (8 * n.fam.alen - n.len) = 0

instance (n : Network) : Decidable n.Canonical :=
  inferInstanceAs (Decidable (be n.bytes % 2 ^ (8 * n.fam.alen - n.len) = 0))

theorem Network.len_le (n : Network) : n.len ≤ 8 * n.fam.alen := by
  cases n with
  | v4 net len h => exact h
  | v6 net len h => exact h

theorem Network.length_bytes (n : Network) : n.bytes.length = n.fam.alen := by
  cases n with
  | v4 net len h => exact net.2
  | v6 net len h => exact net.2

theorem Addr.length_bytes (a : Addr) : a.bytes.length = a.fam.alen := by
  cases a with
  | v4 a => exact a.2
  | v6 a => exact a.2

/-- A network contains the addresses of its family with its prefix. -/
theorem Network.contains_iff (n : Network) (a : Addr) :
    n.Contains a ↔ n.fam = a.fam ∧ Agree a.fam.alen n.len a.bytes n.bytes := by
  cases n with
  | v4 net len h =>
    cases a with
    | v4 a => exact (and_iff_right rfl).symm
    | v6 a => simp [Network.Contains, Network.fam, Addr.fam]
  | v6 net len h =>
    cases a with
    | v4 a => simp [Network.Contains, Network.fam, Addr.fam]
    | v6 a => exact (and_iff_right rfl).symm

theorem toNat_ofNat_len (n : Network) : (UInt8.ofNat n.len).toNat = n.len := by
  have hlen : n.len ≤ 128 := by
    cases n with
    | v4 net len h => exact Nat.le_trans h (by omega)
    | v6 net len h => exact h
  rw [UInt8.toNat_ofNat', Nat.mod_eq_of_lt (by omega)]

theorem exists_cons_cons {key : Bytes} {n : ℕ} (h : key.length = n + 2) :
    ∃ k0 k1 rest, key = k0 :: k1 :: rest ∧ rest.length = n := by
  obtain ⟨k0, l, rfl⟩ := List.exists_cons_of_length_eq_add_one h
  obtain ⟨k1, rest, rfl⟩ := List.exists_cons_of_length_eq_add_one (Nat.succ.inj h)
  exact ⟨k0, k1, rest, rfl, by simpa using h⟩

/-- The key of a network. -/
theorem networkOf_eq_some {key : Bytes} {n : Network} :
    networkOf key = some n ↔ key = n.fam.tag :: UInt8.ofNat n.len :: n.bytes := by
  unfold networkOf
  constructor
  · intro h
    split at h
    · next hk =>
      obtain ⟨k0, k1, rest, rfl, -⟩ := exists_cons_cons hk.1
      cases h
      obtain rfl : k0 = 4 := hk.2.1
      simp [Network.fam, Network.len, Network.bytes, Fam.tag]
    · split at h
      · next hk =>
        obtain ⟨k0, k1, rest, rfl, -⟩ := exists_cons_cons hk.1
        cases h
        obtain rfl : k0 = 6 := hk.2.1
        simp [Network.fam, Network.len, Network.bytes, Fam.tag]
      · cases h
  · rintro rfl
    have hlen := toNat_ofNat_len n
    cases n with
    | v4 net len h =>
      have hle : UInt8.ofNat len ≤ 32 := by
        rw [UInt8.le_iff_toNat_le]
        exact hlen.trans_le h
      rw [dif_pos ⟨by simp [Network.bytes, net.2], rfl, hle⟩]
      simpa [Network.bytes, Network.len] using hlen
    | v6 net len h =>
      have hle : UInt8.ofNat len ≤ 128 := by
        rw [UInt8.le_iff_toNat_le]
        exact hlen.trans_le h
      rw [dif_neg (by simp [Network.bytes, net.2]),
        dif_pos ⟨by simp [Network.bytes, net.2], rfl, hle⟩]
      simpa [Network.bytes, Network.len] using hlen

theorem liveBits_of_networkOf {key : Bytes} {n : Network} (h : networkOf key = some n) :
    liveBits .cidr key = .ok n.fam n.len := by
  unfold networkOf at h
  simp only [liveBits, ne_eq, not_true_eq_false, if_false]
  split at h
  · next hk =>
    cases h
    rw [if_pos hk]
    rfl
  · next hk =>
    rw [if_neg hk]
    split at h
    · next hk' =>
      cases h
      rw [if_pos hk']
      rfl
    · cases h

theorem networkOf_isSome {key : Bytes} (h : liveBits .cidr key ≠ .error) :
    ∃ n, networkOf key = some n := by
  simp only [liveBits, ne_eq, not_true_eq_false, if_false] at h
  unfold networkOf
  split
  · exact ⟨_, rfl⟩
  · next hk =>
    rw [if_neg hk] at h
    split
    · exact ⟨_, rfl⟩
    · next hk' =>
      rw [if_neg hk'] at h
      exact absurd rfl h

/-! ### Cutting an address -/

theorem shift_eq_maskByte : ∀ s < 8, s ≠ 0 → (0xff : UInt8) <<< UInt8.ofNat (8 - s) = maskByte s := by
  decide

theorem keepBytes_eq (keep : ℕ) (l : Bytes) :
    keepBytes keep l = masked l (maskBytes l.length keep) := by
  induction l generalizing keep with
  | nil => rfl
  | cons b l ih =>
    have hmask : (if keep ≥ 8 then b else if keep = 0 then 0
        else b &&& (0xff <<< UInt8.ofNat (8 - keep))) = b &&& maskByte (min keep 8) := by
      split
      · next h8 =>
        rw [min_eq_right h8]
        exact (UInt8.and_neg_one).symm
      · next h8 =>
        rw [min_eq_left (by omega)]
        split
        · next h0 =>
          rw [h0]
          exact (UInt8.and_zero).symm
        · next h0 => rw [shift_eq_maskByte keep (by omega) h0]
    have hrest : keep - min keep 8 = keep - 8 := by omega
    rw [keepBytes, hmask, ih, List.length_cons, maskBytes, hrest]
    rfl

/-- **The probe's key is the key of a network** without host bits for the addresses it contains. -/
theorem probeKey_eq_iff {n : Network} (hc : n.Canonical) {a : Addr} :
    n.fam.tag :: UInt8.ofNat n.len :: n.bytes = probeKey a n.len ↔ n.Contains a := by
  rw [n.contains_iff]
  have htag : n.fam.tag = a.fam.tag ↔ n.fam = a.fam := by
    cases n.fam <;> cases a.fam <;> simp [Fam.tag]
  rw [probeKey, List.cons.injEq, List.cons.injEq, htag, and_congr_right_iff]
  intro hfam
  have hlen := n.len_le
  have hn := n.length_bytes
  have ha := a.length_bytes
  unfold Network.Canonical at hc
  rw [hfam] at hlen hn hc
  have hkeep : be (keepBytes n.len a.bytes) =
      be a.bytes / 2 ^ (8 * a.fam.alen - n.len) * 2 ^ (8 * a.fam.alen - n.len) := by
    rw [keepBytes_eq, ha, be_masked ha hlen]
  have hlk : n.bytes.length = (keepBytes n.len a.bytes).length := by
    rw [keepBytes_eq, hn, masked, List.length_zipWith, length_maskBytes, min_self, ha]
  have hpos : 0 < 2 ^ (8 * a.fam.alen - n.len) := by positivity
  have hdiv : be n.bytes / 2 ^ (8 * a.fam.alen - n.len) * 2 ^ (8 * a.fam.alen - n.len) =
      be n.bytes := Nat.div_mul_cancel (Nat.dvd_of_mod_eq_zero hc)
  unfold Agree
  constructor
  · rintro ⟨-, h⟩
    have hv : be n.bytes = be (keepBytes n.len a.bytes) := by rw [h]
    rw [hkeep, ← hdiv] at hv
    exact (Nat.eq_of_mul_eq_mul_right hpos hv).symm
  · intro h
    refine ⟨rfl, be_injective hlk ?_⟩
    rw [hkeep, h, hdiv]

/-! ### The loop -/

section

variable {crc : Bytes → ℕ} {bal : Balance LiveNode.id} {slot : Slot} {addr : Addr} {now : ℕ}

theorem probeLoop_iff (live : Live) (bits : ℕ) :
    probeLoop crc live addr now bits = true ↔ ∃ b ≤ bits, probeAt crc live addr now b = true := by
  induction bits with
  | zero => simp [probeLoop]
  | succ bits ih =>
    rw [probeLoop, Bool.or_eq_true, ih]
    constructor
    · rintro (h | ⟨b, hb, h⟩)
      · exact ⟨bits + 1, le_rfl, h⟩
      · exact ⟨b, by omega, h⟩
    · rintro ⟨b, hb, h⟩
      rcases Nat.lt_or_ge bits b with hlt | hge
      · obtain rfl : b = bits + 1 := by omega
        exact .inl h
      · exact .inr ⟨b, hge, h⟩

/-- The network of an unexpired node contains the address. -/
def Slot.Contains (slot : Slot) (addr : Addr) (now : ℕ) : Prop :=
  ∃ ln ∈ slot.nodes, ln.lasts now = true ∧ ∃ n, networkOf ln.data = some n ∧ n.Contains addr

/-- No network of the overlay has host bits. -/
def Slot.Canonical (slot : Slot) : Prop :=
  ∀ ln ∈ slot.nodes, ∀ n, networkOf ln.data = some n → n.Canonical

theorem ofNat_inj_of_le {a b : ℕ} (ha : a ≤ 128) (hb : b ≤ 128) (h : UInt8.ofNat a = UInt8.ofNat b) :
    a = b := by
  have hv := congrArg UInt8.toNat h
  rwa [UInt8.toNat_ofNat', UInt8.toNat_ofNat', Nat.mod_eq_of_lt (by omega),
    Nat.mod_eq_of_lt (by omega)] at hv

theorem Fam.alen_le (fam : Fam) : 8 * fam.alen ≤ 128 := by
  cases fam with
  | v4 => decide
  | v6 => decide

theorem liveProbe_iff (hx : Exact crc slot) (ht : slot.type = .cidr) (hc : slot.Canonical) :
    liveProbe crc slot addr now = true ↔ slot.Contains addr now := by
  unfold liveProbe Slot.Contains
  unfold Slot.Canonical at hc
  cases hl : slot.live with
  | none => simp [Slot.nodes, hl]
  | some live =>
    have hb := hx.books hl
    rw [Slot.nodes_of hl] at hc ⊢
    simp only [probeLoop_iff, probeAt, Bool.and_eq_true, decide_eq_true_eq, Option.any_eq_true]
    constructor
    · rintro ⟨b, hle, -, ln, hfind, hlasts⟩
      obtain ⟨hmem, hdata⟩ := liveLookup_some hb hfind
      have hvalid := (hb.keyed ln hmem).valid
      rw [ht] at hvalid
      obtain ⟨n, hn⟩ := networkOf_isSome hvalid
      have hkey := networkOf_eq_some.1 hn
      have hlen : n.len = b := by
        rw [hdata, probeKey, List.cons.injEq, List.cons.injEq] at hkey
        have hle' := Fam.alen_le addr.fam
        have hn' := Fam.alen_le n.fam
        have hnl := n.len_le
        exact ofNat_inj_of_le (by omega) (by omega) hkey.2.1.symm
      refine ⟨ln, hmem, hlasts, n, hn, ?_⟩
      rw [← probeKey_eq_iff (hc ln hmem n hn), ← hkey, hdata, hlen]
    · rintro ⟨ln, hmem, hlasts, n, hn, hcontains⟩
      have hkey : ln.data = probeKey addr n.len := by
        rw [networkOf_eq_some.1 hn]
        exact (probeKey_eq_iff (hc ln hmem n hn)).2 hcontains
      have hfam := ((n.contains_iff addr).1 hcontains).1
      refine ⟨n.len, ?_, ?_, ln, (liveLookup_eq_some hb).2 ⟨hmem, hkey⟩, hlasts⟩
      · rw [← hfam]
        exact n.len_le
      · rw [hb.lens_eq, lensOf, ← hfam, ← Nat.pos_iff_ne_zero, List.countP_pos_iff]
        refine ⟨ln, hmem, ?_⟩
        rw [ht, liveBits_of_networkOf hn]
        exact decide_eq_true rfl

/-! ### Sequences of operations -/

/-- A put whose key has no host bits. -/
def LiveOp.Canonical : LiveOp → Prop
  | .put key .. => ∀ n, networkOf key = some n → n.Canonical
  | _ => True

theorem canonical_run (crc : Bytes → ℕ) (bal : Balance LiveNode.id) (slot : Slot)
    {ops : List LiveOp} (hops : ∀ op ∈ ops, op.Canonical) (hc : slot.Canonical) :
    (runFrom (liveStep crc bal) slot ops).Canonical := by
  induction ops generalizing slot with
  | nil => exact hc
  | cons op ops ih =>
    refine ih _ (fun o ho => hops o (List.mem_cons_of_mem op ho)) fun ln hln n hn => ?_
    rcases data_liveStep op hln with ⟨old, hold, hdata⟩ | ⟨expires, h, gen, room, rfl⟩
    · rw [← hdata] at hn
      exact hc old hold n hn
    · exact hops _ List.mem_cons_self n hn

theorem framed_run (slot : Slot) (ops : List LiveOp) :
    Framed slot (runFrom (liveStep crc bal) slot ops) := by
  induction ops generalizing slot with
  | nil => rfl
  | cons op ops ih => exact Framed.trans (framed_liveStep op) (ih _)

/-- **An internal set of the same networks** gives the same answers. -/
theorem internalHit_iff {q : Cover.Qsort} {ptocidr : Bytes → Option Cidr}
    {network : Bytes → Option Network} {entries : List Bytes} {calloc : ℕ → Bool}
    (hp : ∀ t, ptocidr t = (network t).map Network.cidr)
    (hsame : ∀ n, (∃ t ∈ entries, network t = some n) ↔
      ∃ ln ∈ slot.nodes, ln.lasts now = true ∧ networkOf ln.data = some n)
    (hnet : ∀ t ∈ entries, (network t).isSome)
    (hmapped : ∀ t ∈ entries, ∀ n, network t = some n → n.counted = n)
    (hroom : ∀ n, calloc n = true) :
    ∃ set, dsBuild q ptocidr calloc entries = some set ∧
      ∀ addr, internalHit set addr = true ↔ slot.Contains addr now := by
  obtain ⟨set, hset, hiff⟩ := dsBuild_spec (q := q) hp hnet hroom
  refine ⟨set, hset, fun addr => ?_⟩
  rw [hiff]
  constructor
  · rintro ⟨t, ht, n, hn, hcontains⟩
    rw [hmapped t ht n hn] at hcontains
    obtain ⟨ln, hln, hlasts, hnet⟩ := (hsame n).1 ⟨t, ht, hn⟩
    exact ⟨ln, hln, hlasts, n, hnet, hcontains⟩
  · rintro ⟨ln, hln, hlasts, n, hn, hcontains⟩
    obtain ⟨t, ht, hnet⟩ := (hsame n).2 ⟨ln, hln, hlasts, hn⟩
    refine ⟨t, ht, n, hnet, ?_⟩
    rwa [hmapped t ht n hnet]

end

/-- **Probing the overlay is membership.**  After any operations on an overlay of networks whose puts
have no host bits, the probe answers whether a network of an unexpired node contains the address; an
internal set of these networks, when none of them counts as IPv4-mapped, gives the same answers. -/
theorem live_probe_is_membership (crc : Bytes → ℕ) (bal : Balance LiveNode.id) (slot : Slot)
    (htype : slot.type = .cidr) (ops : List LiveOp) (hops : ∀ op ∈ ops, op.Canonical) (now : ℕ) :
    (∀ addr, liveProbe crc (runFrom (liveStep crc bal) slot.bare ops) addr now = true ↔
      (runFrom (liveStep crc bal) slot.bare ops).Contains addr now) ∧
    ∀ (q : Cover.Qsort) (ptocidr : Bytes → Option Cidr) (network : Bytes → Option Network)
      (entries : List Bytes) (calloc : ℕ → Bool),
      (∀ t, ptocidr t = (network t).map Network.cidr) →
      (∀ n, (∃ t ∈ entries, network t = some n) ↔
        ∃ ln ∈ (runFrom (liveStep crc bal) slot.bare ops).nodes,
          ln.lasts now = true ∧ networkOf ln.data = some n) →
      (∀ t ∈ entries, (network t).isSome) →
      (∀ t ∈ entries, ∀ n, network t = some n → n.counted = n) →
      (∀ n, calloc n = true) →
      ∃ set, dsBuild q ptocidr calloc entries = some set ∧ ∀ addr,
        internalHit set addr = liveProbe crc (runFrom (liveStep crc bal) slot.bare ops) addr now := by
  have h0 : Exact crc slot.bare := rfl
  have hx : Exact crc (runFrom (liveStep crc bal) slot.bare ops) :=
    invariant_always (fun s op (hs : Exact crc s) => exact_liveStep hs op) ops h0
  have ht : (runFrom (liveStep crc bal) slot.bare ops).type = .cidr :=
    (congrArg Slot.type (framed_run slot.bare ops)).trans htype
  have hbare : slot.bare.Canonical := fun ln hln => absurd hln List.not_mem_nil
  have hc := canonical_run crc bal slot.bare hops hbare
  have hprobe : ∀ addr, liveProbe crc (runFrom (liveStep crc bal) slot.bare ops) addr now = true ↔
      (runFrom (liveStep crc bal) slot.bare ops).Contains addr now := fun addr =>
    liveProbe_iff hx ht hc
  refine ⟨hprobe, fun q ptocidr network entries calloc hp hsame hnet hmapped hroom => ?_⟩
  obtain ⟨set, hset, hiff⟩ := internalHit_iff (q := q) hp hsame hnet hmapped hroom
  refine ⟨set, hset, fun addr => ?_⟩
  rw [Bool.eq_iff_iff, hiff, hprobe]

/-- A slot of a dataset of networks. -/
def cidrSlot : Slot where
  type := .cidr
  live := none
  liveMax := 0
  seq := 0
  epoch := 0
  key := List.replicate 16 0
  liveHash := 0
  syncing := false
  snapBad := false

/-- `10.0.0.0/8` for ever and `10.1.0.0/16` until 100. -/
def twoPuts : List LiveOp :=
  [.put [4, 8, 10, 0, 0, 0] 0 5 1 (true, true), .put [4, 16, 10, 1, 0, 0] 100 7 1 (true, true)]

theorem live_probe_is_membership_behind :
    let slot := runFrom (liveStep Rate.crc32 (Balance.plain LiveNode.id)) cidrSlot.bare twoPuts
    liveProbe Rate.crc32 slot (.v4 ⟨[10, 1, 2, 3], rfl⟩) 200 = true ∧
    ∃ set, dsBuild Cover.Qsort.merge (fun t => (threeNetworks t).map Network.cidr) (fun _ => true)
        [[1]] = some set ∧
      ∀ addr, internalHit set addr = liveProbe Rate.crc32 slot addr 200 := by
  intro slot
  have hops : ∀ op ∈ twoPuts, op.Canonical := by
    intro op hop
    rcases List.mem_cons.1 hop with rfl | hop
    · intro n hn
      cases hn
      decide
    · obtain rfl := List.mem_singleton.1 hop
      intro n hn
      cases hn
      decide
  have hnodes : slot.nodes = [⟨Rate.crc32 [4, 16, 10, 1, 0, 0], [4, 16, 10, 1, 0, 0], 1, 100, 7⟩,
      ⟨Rate.crc32 [4, 8, 10, 0, 0, 0], [4, 8, 10, 0, 0, 0], 1, 0, 5⟩] := by
    decide +kernel
  obtain ⟨hprobe, hset⟩ := live_probe_is_membership Rate.crc32 (Balance.plain LiveNode.id) cidrSlot rfl
    twoPuts hops 200
  constructor
  · refine (hprobe _).2 ⟨⟨Rate.crc32 [4, 8, 10, 0, 0, 0], [4, 8, 10, 0, 0, 0], 1, 0, 5⟩, ?_, by decide,
      .v4 ⟨[10, 0, 0, 0], rfl⟩ 8 (by omega), rfl, by decide⟩
    rw [hnodes]
    exact List.mem_cons_of_mem _ List.mem_cons_self
  · refine hset Cover.Qsort.merge _ threeNetworks [[1]]
      (fun _ => true) (fun t => rfl) (fun n => ?_) (by decide) (fun t ht n hn => ?_) (fun _ => rfl)
    · rw [hnodes]
      have hold : LiveNode.lasts
          ⟨Rate.crc32 [4, 16, 10, 1, 0, 0], [4, 16, 10, 1, 0, 0], 1, 100, 7⟩ 200 = false := by decide
      have hlive : LiveNode.lasts
          ⟨Rate.crc32 [4, 8, 10, 0, 0, 0], [4, 8, 10, 0, 0, 0], 1, 0, 5⟩ 200 = true := by decide
      simp only [List.mem_cons, List.not_mem_nil, or_false, exists_eq_left, exists_eq_or_imp, hold,
        hlive, true_and, Bool.false_eq_true, false_and, false_or]
      rfl
    · obtain rfl := List.mem_singleton.1 ht
      cases hn
      rfl

end Dataset
