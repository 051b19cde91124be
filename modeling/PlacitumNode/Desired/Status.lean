import PlacitumNode.Desired.Apply
import PlacitumNode.Lib.Numerals

/-!
# The status of a generation that failed (`desired/watch.go`, `apply.go`, `decrypt.go`, `blobs.go`)

The handler tells a generation that cannot be decrypted from every other failure by the text of the
error.

* `decryptEnvelope`, `fetchBlobs`, `applyResult`: the failures with their texts;
* `containsDecryptError`, `handleStatus`: what is recorded;
* `text_not_decrypt`: no error of `Apply` is recognised;
* `status_wanted_iff`: when the status is the one that the failure asks for.
-/

namespace Desired

open Octets Numerals

/-! ### The envelope -/

/-- What the libraries make of the wrapped key and of the ciphertext; an error is its text. -/
structure Crypto where
  unwrap : Bytes → Except Bytes Bytes
  cipher : Bytes → Option Bytes
  gcm : Bytes → Option Bytes
  openGcm : Bytes → Bytes → Bytes → Except Bytes Bytes

/-- `DecryptEnvelope` -/
def decryptEnvelope (c : Crypto) (envelope : Bytes) : Except Bytes Bytes :=
  match envelope with
  | version :: hi :: lo :: body =>
    if version ≠ 1 then
      .error (ascii "decrypt: unsupported envelope version " ++ decimal version.toNat)
    else
      let dekLen := hi.toNat * 256 + lo.toNat
      if dekLen ≤ 0 ∨ envelope.length < 3 + dekLen + 12 + 16 then
        .error (ascii "decrypt: truncated envelope (dekLen=" ++ decimal dekLen ++ ascii ", total=" ++
          decimal envelope.length ++ ascii ")")
      else
        match c.unwrap (body.take dekLen) with
        | .error err => .error (ascii "decrypt: unwrap dek: " ++ err)
        | .ok dek =>
          if dek.length ≠ 32 then
            .error (ascii "decrypt: unexpected dek length " ++ decimal dek.length)
          else
            let rest := body.drop dekLen
            match c.cipher dek, c.gcm dek, c.openGcm dek (rest.take 12) (rest.drop 12) with
            | some err, _, _ => .error (ascii "decrypt: aes: " ++ err)
            | none, some err, _ => .error (ascii "decrypt: gcm: " ++ err)
            | none, none, .error err => .error (ascii "decrypt: open: " ++ err)
            | none, none, .ok plaintext => .ok plaintext
  | _ => .error (ascii "decrypt: envelope too short")

/-! ### The blobs -/

/-- A value that Redis answers; `other` names its type. -/
inductive RedisValue
  | missing
  | body (bytes : Bytes)
  | other (typeName : Bytes)

/-- The loop of `FetchBlobs` over the answer. -/
def readBlobs (hashOf : Bytes → String) (blobKey : String → Bytes) :
    List (String × RedisValue) → Blobs → Except Bytes Blobs
  | [], out => .ok out
  | (hash, value) :: rest, out =>
    match value with
    | .missing => .error (ascii "redis: missing " ++ blobKey hash)
    | .other typeName =>
      .error (ascii "redis: " ++ blobKey hash ++ ascii ": unexpected type " ++ typeName)
    | .body buf =>
      if hashOf buf ≠ hash then .error (ascii "redis: " ++ blobKey hash ++ ascii " hash mismatch")
      else readBlobs hashOf blobKey rest (Function.update out hash (some buf))

/-- `AllHashes`, with the hashes of the store entries and of the pages in the order of the maps. -/
def allHashes (p : Pack) (store pages : List String) : List String :=
  (store ++ pages).foldl (fun out hash => if hash ∈ out then out else out ++ [hash]) [p.config]

/-- `FetchBlobs` -/
def fetchBlobs (hashOf : Bytes → String) (blobKey : String → Bytes) (hashes : List String)
    (mget : Except Bytes (List RedisValue)) : Except Bytes Blobs :=
  if hashes.length = 0 then .ok fun _ => none
  else
    match mget with
    | .error err => .error (ascii "redis mget: " ++ err)
    | .ok vals => readBlobs hashOf blobKey (hashes.zip vals) fun _ => none

/-! ### Applying -/

/-- The failures of `Apply` after everything was decrypted, with what the system says of them. -/
inductive Later
  | cleanStaging (err : Bytes)
  | mkdirStaging (err : Bytes)
  | writeStore (uuid err : Bytes)
  | cleanPages (err : Bytes)
  | mkdirPages (err : Bytes)
  | pageMissing (name : Bytes)
  | writePage (name err : Bytes)
  | mkdirConf (err : Bytes)
  | writeConf (err : Bytes)
  | nginxTest (err out : Bytes)
  | swapStore (err : Bytes)
  | swapPages (err : Bytes)
  | swapConf (err : Bytes)
  | rewriteConf (err : Bytes)
  | reload (err out : Bytes)

def Later.text : Later → Bytes
  | .cleanStaging err => ascii "clean staging: " ++ err
  | .mkdirStaging err => ascii "mkdir staging: " ++ err
  | .writeStore uuid err => ascii "write store " ++ uuid ++ ascii ": " ++ err
  | .cleanPages err => ascii "clean staging pages: " ++ err
  | .mkdirPages err => ascii "mkdir staging pages: " ++ err
  | .pageMissing name => ascii "page " ++ name ++ ascii " blob missing"
  | .writePage name err => ascii "write page " ++ name ++ ascii ": " ++ err
  | .mkdirConf err => ascii "mkdir conf staging: " ++ err
  | .writeConf err => ascii "write conf: " ++ err
  | .nginxTest err out => ascii "nginx -t failed: " ++ err ++ ascii "\n" ++ out
  | .swapStore err => ascii "swap store: " ++ err
  | .swapPages err => ascii "swap pages: " ++ err
  | .swapConf err => ascii "swap conf: " ++ err
  | .rewriteConf err => ascii "rewrite conf live paths: " ++ err
  | .reload err out => ascii "nginx reload failed: " ++ err ++ ascii "\n" ++ out

inductive ApplyError
  | configMissing
  | unknown (uuid : Bytes)
  | unreferenced (uuid : Bytes)
  | blobMissing (uuid : Bytes)
  | rejected (uuid err : Bytes)
  | later (l : Later)

/-- `err.Error()` of what `Apply` returns. -/
def ApplyError.text (e : ApplyError) : Bytes :=
  ascii "apply: " ++ match e with
    | .configMissing => ascii "config blob missing"
    | .unknown uuid => ascii "template references store:" ++ uuid ++ ascii " not in manifest"
    | .unreferenced uuid =>
      ascii "manifest store entry " ++ uuid ++ ascii " not referenced in template"
    | .blobMissing uuid => ascii "store " ++ uuid ++ ascii " blob missing"
    | .rejected uuid err => ascii "store " ++ uuid ++ ascii ": " ++ err
    | .later l => l.text

/-- The orders in which the two loops of `Apply` go through the store. -/
structure Visits (p : Pack) where
  check : List Bytes
  decrypt : List Bytes
  check_perm : check.Perm p.keys
  decrypt_perm : decrypt.Perm p.keys

/-- The blob of a store entry. -/
def entryBlob (p : Pack) (blobs : Blobs) (uuid : Bytes) : Option Bytes :=
  (p.store.find? fun x => x.1 = uuid).bind fun x => blobs x.2

/-- The loop that decrypts the store entries. -/
def decryptAll (c : Crypto) (p : Pack) (blobs : Blobs) : List Bytes → Except ApplyError (List Bytes)
  | [] => .ok []
  | uuid :: rest =>
    match entryBlob p blobs uuid with
    | none => .error (.blobMissing uuid)
    | some ciphertext =>
      match decryptEnvelope c ciphertext with
      | .error err => .error (.rejected uuid err)
      | .ok plain => (decryptAll c p blobs rest).map (plain :: ·)

/-- `Apply` up to the decryption; what follows ends as `later` says. -/
def applyResult (c : Crypto) (p : Pack) (v : Visits p) (blobs : Blobs) (later : Except Later String) :
    Except ApplyError String :=
  match blobs p.config with
  | none => .error .configMissing
  | some text =>
    match (extractRefs text).find? (· ∉ p.keys) with
    | some uuid => .error (.unknown uuid)
    | none =>
      match v.check.find? (· ∉ extractRefs text) with
      | some uuid => .error (.unreferenced uuid)
      | none =>
        match decryptAll c p blobs v.decrypt with
        | .error e => .error e
        | .ok _ => later.mapError .later

/-! ### The status -/

/-- `"ok"`, `"apply_failed"` and `"undecryptable"` -/
inductive Status
  | ok
  | applyFailed
  | undecryptable
  deriving DecidableEq

/-- `Applied` -/
structure Applied where
  hash : String
  rev : ℤ
  apply : Status
  conf : String

/-- `containsDecryptError` -/
def containsDecryptError (msg : Bytes) : Bool :=
  msg.length > 7 && (msg.take 8 = ascii "decrypt:" ||
    (msg.length > 20 && (msg.drop 7).take 8 = ascii "store" && (msg.drop 16).take 4 = ascii "decr"))

/-- The generation is the one that was applied. -/
def Applied.current (s : Applied) (p : Pack) : Bool :=
  s.apply = .ok && s.hash = p.sha256 && s.rev = p.rev

/-- The private key, the checksum and the names of the blobs. -/
structure Platform where
  crypto : Crypto
  hashOf : Bytes → String
  blobKey : String → Bytes

/-- What an attempt to apply meets: the orders of the maps, the answer of Redis, and the end of the
steps after the decryption. -/
structure Attempt (p : Pack) where
  visits : Visits p
  storeHashes : List String
  pageHashes : List String
  store_perm : storeHashes.Perm (p.store.map Prod.snd)
  page_perm : pageHashes.Perm (p.pages.map Prod.snd)
  mget : Except Bytes (List RedisValue)
  later : Except Later String

section

variable (e : Platform) (s : Applied) (p : Pack) (a : Attempt p)

/-- The blobs that the attempt has. -/
def fetched : Except Bytes Blobs :=
  fetchBlobs e.hashOf e.blobKey (allHashes p a.storeHashes a.pageHashes) a.mget

/-- The handler of `Watch` -/
def handleStatus : Applied :=
  if s.current p then s
  else
    match fetched e p a with
    | .error _ => { s with apply := .applyFailed }
    | .ok blobs =>
      match applyResult e.crypto p a.visits blobs a.later with
      | .error err =>
        { s with apply := if containsDecryptError err.text then .undecryptable else .applyFailed }
      | .ok fingerprint => ⟨p.sha256, p.rev, .ok, fingerprint⟩

/-- The status that says what happened. -/
def wantedStatus : Status :=
  if s.current p then s.apply
  else
    match fetched e p a with
    | .error _ => .applyFailed
    | .ok blobs =>
      match applyResult e.crypto p a.visits blobs a.later with
      | .error (.rejected _ _) => .undecryptable
      | .error _ => .applyFailed
      | .ok _ => .ok

/-- The blobs are there and fit the configuration, and the first store entry that is not decrypted
has an envelope that is rejected. -/
def Rejects : Prop :=
  ∃ blobs text before uuid after ciphertext err, fetched e p a = .ok blobs ∧
    blobs p.config = some text ∧ (∀ u ∈ extractRefs text, u ∈ p.keys) ∧
    (∀ u ∈ a.visits.check, u ∈ extractRefs text) ∧
    a.visits.decrypt = before ++ uuid :: after ∧
    (∀ u ∈ before, ∃ b plain, entryBlob p blobs u = some b ∧ decryptEnvelope e.crypto b = .ok plain) ∧
    entryBlob p blobs uuid = some ciphertext ∧ decryptEnvelope e.crypto ciphertext = .error err

end

/-! ### No error of `Apply` is recognised -/

/-- A text that begins as all errors of `Apply` do. -/
theorem not_contains (t : Bytes) : containsDecryptError (ascii "apply: " ++ t) = false := by
  have hhead : (ascii "apply: " ++ t).take 8 ≠ ascii "decrypt:" := by
    intro h
    have hfirst := congrArg List.head? h
    revert hfirst
    change some 97 = some 100 → False
    decide
  have hstore : ((ascii "apply: " ++ t).length > 20 &&
      ((ascii "apply: " ++ t).drop 7).take 8 = ascii "store") = false := by
    rw [Bool.and_eq_false_iff, decide_eq_false_iff_not, decide_eq_false_iff_not]
    by_cases hlen : (ascii "apply: " ++ t).length > 20
    · -- eight bytes are compared with five
      refine .inr fun h => ?_
      have hcount := congrArg List.length h
      have hfive : (ascii "store").length = 5 := by decide
      rw [List.length_take, List.length_drop, hfive] at hcount
      omega
    · exact .inl hlen
  rw [containsDecryptError, hstore, decide_eq_false hhead]
  simp

theorem text_not_decrypt (err : ApplyError) : containsDecryptError err.text = false :=
  not_contains _

/-! ### When an envelope is rejected -/

theorem decryptAll_rejected_iff {c : Crypto} {p : Pack} {blobs : Blobs} {order : List Bytes} :
    (∃ uuid err, decryptAll c p blobs order = .error (.rejected uuid err)) ↔
      ∃ before uuid after b err, order = before ++ uuid :: after ∧
        (∀ u ∈ before, ∃ b plain, entryBlob p blobs u = some b ∧ decryptEnvelope c b = .ok plain) ∧
        entryBlob p blobs uuid = some b ∧ decryptEnvelope c b = .error err := by
  induction order with
  | nil =>
    constructor
    · rintro ⟨uuid, err, h⟩
      cases h
    · rintro ⟨before, uuid, after, b, err, h, -⟩
      simp at h
  | cons u rest ih =>
    -- the entries before the one that fails: none, or the first one and those of the rest
    constructor
    · rintro ⟨uuid, err, h⟩
      rw [decryptAll] at h
      cases hblob : entryBlob p blobs u with
      | none =>
        rw [hblob] at h
        cases h
      | some b =>
        rw [hblob] at h
        cases hplain : decryptEnvelope c b with
        | error err =>
          exact ⟨[], u, rest, b, err, rfl, by simp, hblob, hplain⟩
        | ok plain =>
          have hrest : decryptAll c p blobs rest = .error (.rejected uuid err) := by
            cases hall : decryptAll c p blobs rest with
            | error x => simpa [hplain, hall, Except.map] using h
            | ok x => simp [hplain, hall, Except.map] at h
          obtain ⟨before, v, after, b', err', rfl, hok, hv, herr⟩ := ih.mp ⟨uuid, err, hrest⟩
          refine ⟨u :: before, v, after, b', err', rfl, ?_, hv, herr⟩
          intro w hw
          rcases List.mem_cons.mp hw with rfl | hw
          · exact ⟨b, plain, hblob, hplain⟩
          · exact hok w hw
    · rintro ⟨before, v, after, b, err, horder, hok, hv, herr⟩
      cases before with
      | nil =>
        obtain ⟨rfl, rfl⟩ := List.cons_eq_cons.mp horder
        refine ⟨u, err, ?_⟩
        rw [decryptAll, hv]
        simp only [herr]
      | cons w before =>
        obtain ⟨rfl, rfl⟩ := List.cons_eq_cons.mp horder
        obtain ⟨b', plain, hblob, hplain⟩ := hok u List.mem_cons_self
        obtain ⟨uuid, err', hrest⟩ := ih.mpr ⟨before, v, after, b, err, rfl,
          fun w hw => hok w (List.mem_cons_of_mem _ hw), hv, herr⟩
        refine ⟨uuid, err', ?_⟩
        rw [decryptAll, hblob]
        simp only [hplain, hrest]
        rfl

section

variable {c : Crypto} {p : Pack} {v : Visits p} {blobs : Blobs} {later : Except Later String}

/-- The references of the configuration and the store entries fit. -/
def Fits (p : Pack) (v : Visits p) (text : Bytes) : Prop :=
  (∀ u ∈ extractRefs text, u ∈ p.keys) ∧ ∀ u ∈ v.check, u ∈ extractRefs text

/-- What `Apply` does with a configuration that fits. -/
theorem applyResult_fits {text : Bytes} (htext : blobs p.config = some text) (h : Fits p v text) :
    applyResult c p v blobs later =
      match decryptAll c p blobs v.decrypt with
      | .error e => .error e
      | .ok _ => later.mapError .later := by
  have hknown : (extractRefs text).find? (· ∉ p.keys) = none := by
    simpa [List.find?_eq_none] using h.1
  have hused : v.check.find? (· ∉ extractRefs text) = none := by
    simpa [List.find?_eq_none] using h.2
  unfold applyResult
  simp only [htext, hknown, hused]

/-- What `Apply` does with a configuration that does not fit. -/
theorem applyResult_unfit {l : Except Later String} {text : Bytes}
    (htext : blobs p.config = some text) (h : ¬Fits p v text) :
    ∃ uuid, applyResult c p v blobs l = .error (.unknown uuid) ∨
      applyResult c p v blobs l = .error (.unreferenced uuid) := by
  unfold applyResult
  rw [htext]
  cases hknown : (extractRefs text).find? (· ∉ p.keys) with
  | some u => exact ⟨u, .inl (by simp only [hknown])⟩
  | none =>
    cases hused : v.check.find? (· ∉ extractRefs text) with
    | some u => exact ⟨u, .inr (by simp only [hknown, hused])⟩
    | none =>
      refine absurd ⟨?_, ?_⟩ h
      · simpa [List.find?_eq_none] using hknown
      · simpa [List.find?_eq_none] using hused

/-- `Apply` rejects an envelope when everything before the decryption is in order. -/
theorem applyResult_rejected_iff :
    (∃ uuid err, applyResult c p v blobs later = .error (.rejected uuid err)) ↔
      (∃ text, blobs p.config = some text ∧ Fits p v text) ∧
        ∃ uuid err, decryptAll c p blobs v.decrypt = .error (.rejected uuid err) := by
  cases htext : blobs p.config with
  | none => simp [applyResult, htext]
  | some text =>
    by_cases hfit : Fits p v text
    · have hgate : ∃ text', some text = some text' ∧ Fits p v text' := ⟨text, rfl, hfit⟩
      rw [and_iff_right hgate, applyResult_fits htext hfit]
      cases decryptAll c p blobs v.decrypt with
      | error x => simp
      | ok x => cases later <;> simp [Except.mapError]
    · obtain ⟨u, h | h⟩ := applyResult_unfit (c := c) (l := later) htext hfit
      · simp [h, hfit]
      · simp [h, hfit]

end

/-! ### The status that is recorded -/

section

variable {e : Platform} {s : Applied} {p : Pack} {a : Attempt p}

theorem rejects_iff : Rejects e p a ↔ ∃ blobs uuid err, fetched e p a = .ok blobs ∧
    applyResult e.crypto p a.visits blobs a.later = .error (.rejected uuid err) := by
  constructor
  · rintro ⟨blobs, text, before, uuid, after, b, err, hblobs, htext, hkeys, hrefs, hrest⟩
    obtain ⟨uuid, err, h⟩ := applyResult_rejected_iff.mpr
      ⟨⟨text, htext, hkeys, hrefs⟩, decryptAll_rejected_iff.mpr
        ⟨before, uuid, after, b, err, hrest⟩⟩
    exact ⟨blobs, uuid, err, hblobs, h⟩
  · rintro ⟨blobs, uuid, err, hblobs, h⟩
    obtain ⟨⟨text, htext, hkeys, hrefs⟩, hrej⟩ := applyResult_rejected_iff.mp ⟨uuid, err, h⟩
    obtain ⟨before, u, after, b, err, hrest⟩ := decryptAll_rejected_iff.mp hrej
    exact ⟨blobs, text, before, u, after, b, err, hblobs, htext, hkeys, hrefs, hrest⟩

/-- Every failure is recorded as `apply_failed`. -/
theorem handleStatus_apply : (handleStatus e s p a).apply =
    if s.current p then s.apply
    else
      match fetched e p a with
      | .error _ => .applyFailed
      | .ok blobs =>
        match applyResult e.crypto p a.visits blobs a.later with
        | .error _ => .applyFailed
        | .ok _ => .ok := by
  unfold handleStatus
  split_ifs with hcurrent
  · rfl
  · cases fetched e p a with
    | error err => rfl
    | ok blobs =>
      cases hres : applyResult e.crypto p a.visits blobs a.later with
      | error err => simp [hres, text_not_decrypt]
      | ok fingerprint => simp [hres]

/-- The status says what happened exactly when no envelope was rejected. -/
theorem status_wanted_iff (e : Platform) (s : Applied) (p : Pack) (a : Attempt p) :
    (handleStatus e s p a).apply = wantedStatus e s p a ↔ s.current p = true ∨ ¬Rejects e p a := by
  rw [handleStatus_apply, wantedStatus, rejects_iff]
  by_cases hcurrent : s.current p = true
  · simp [hcurrent]
  · rw [if_neg hcurrent, if_neg hcurrent, or_iff_right hcurrent]
    cases fetched e p a with
    | error err => simp
    | ok blobs =>
      cases hres : applyResult e.crypto p a.visits blobs a.later with
      | ok fingerprint => simp [hres]
      | error err =>
        cases err <;> simp [hres]

end

/-! ### An empty envelope -/

def sampleUuid : Bytes := ascii "11111111-2222-3333-4444-555555555555"

def sampleConfig : String :=
  "sha256:fa2a88eef612b1c844326e5c095e1e12095a756ef1dd59bae295cd65c33a4567"

def sampleEnvelope : String :=
  "sha256:e3b0c44298fc1c149afbf4c8996fb92427ae41e4649b934ca495991b7852b855"

/-- A generation with one store entry. -/
def samplePack : Pack :=
  ⟨1, sampleConfig, sampleConfig, [(sampleUuid, sampleEnvelope)], [], by simp, by simp⟩

/-- The checksums of the two blobs, and no key that opens anything. -/
def samplePlatform : Platform where
  crypto := ⟨fun _ => .error [], fun _ => none, fun _ => none, fun _ _ _ => .error []⟩
  hashOf b := if b = [] then sampleEnvelope else sampleConfig
  blobKey hash := ascii hash

/-- Redis answers the configuration and an empty envelope. -/
def sampleAttempt : Attempt samplePack where
  visits := ⟨[sampleUuid], [sampleUuid], .refl _, .refl _⟩
  storeHashes := [sampleEnvelope]
  pageHashes := []
  store_perm := .refl _
  page_perm := .refl _
  mget := .ok [.body (ascii "store:" ++ sampleUuid), .body []]
  later := .ok sampleConfig

theorem sampleFetched : ∃ blobs, fetched samplePlatform samplePack sampleAttempt = .ok blobs ∧
    applyResult samplePlatform.crypto samplePack sampleAttempt.visits blobs sampleAttempt.later =
      .error (.rejected sampleUuid (ascii "decrypt: envelope too short")) :=
  ⟨_, rfl, rfl⟩

/-- The envelope is rejected, and the status that is recorded is `apply_failed`. -/
theorem empty_envelope_apply_failed :
    (∃ blobs, fetched samplePlatform samplePack sampleAttempt = .ok blobs ∧
      applyResult samplePlatform.crypto samplePack sampleAttempt.visits blobs sampleAttempt.later =
        .error (.rejected sampleUuid (ascii "decrypt: envelope too short"))) ∧
    (handleStatus samplePlatform ⟨"", 0, .ok, ""⟩ samplePack sampleAttempt).apply = .applyFailed :=
  ⟨sampleFetched, by decide +kernel⟩

end Desired
