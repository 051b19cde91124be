import PlacitumNode.Lib.Octets

/-!
# The output side of a link (`net/ngx_http_waf_link.c`)

A link queues the bytes that its socket has not taken yet in one buffer. Room for new bytes is made by
moving the unsent ones to the front or by doubling the buffer up to a limit.

* `Link`: the buffer with its two positions, which every value keeps in order;
* `Link.reserve`, `Link.linkOut`, `Link.flush`: the three functions that touch the buffer;
* `Link.unsent`: the byte sequence that the buffer stands for;
* `unsent_reserve`, `linkOut_of_room`, `sent_flush`: what each function does to that sequence.
-/

namespace Net

open Octets

/-- The output fields of `ngx_http_waf_link_t` with `conf->out_max`. The limit leaves the doubling of a
smaller size within a `size_t`. -/
structure Link where
  outMax : ℕ
  out : Bytes
  outSize : ℕ
  outPos : ℕ
  outLast : ℕ
  size_eq : out.length = outSize
  pos_le : outPos ≤ outLast
  last_le : outLast ≤ outSize
  size_pos : 0 < outSize
  max_le : outMax ≤ 2 ^ 63

/-- `ngx_palloc`: memory of the wanted size with any content, or none. -/
abbrev Palloc := (n : ℕ) → Option { memory : Bytes // memory.length = n }

namespace Link

/-- The bytes that are queued and not sent. -/
def unsent (l : Link) : Bytes := (l.out.take l.outLast).drop l.outPos

/-- The free bytes behind the queued ones. -/
def room (l : Link) : ℕ := l.outSize - l.outLast

/-- A fresh link as `ngx_http_waf_link_init` leaves it. -/
def init (outInitial outMax : ℕ) (memory : Bytes)
    (hsize : memory.length = min outInitial outMax) (hpos : 0 < min outInitial outMax)
    (hmax : outMax ≤ 2 ^ 63) : Link where
  outMax := outMax
  out := memory
  outSize := min outInitial outMax
  outPos := 0
  outLast := 0
  size_eq := hsize
  pos_le := le_rfl
  last_le := Nat.zero_le _
  size_pos := hpos
  max_le := hmax

/-! ### Making room -/

/-- An empty queue starts over at the front. -/
def rewind (l : Link) : Link :=
  if l.outPos = l.outLast then
    { l with outPos := 0, outLast := 0, pos_le := le_rfl, last_le := Nat.zero_le _ }
  else l

/-- The reset of the output buffer in `ngx_http_waf_link_connect`. -/
def restart (l : Link) : Link :=
  { l with outPos := 0, outLast := 0, pos_le := le_rfl, last_le := Nat.zero_le _ }

/-- The `ngx_memmove` of the unsent bytes to the front. -/
def compact (l : Link) : Link :=
  { l with
    out := l.unsent ++ l.out.drop (l.outLast - l.outPos)
    outPos := 0
    outLast := l.outLast - l.outPos
    size_eq := by
      have hpos := l.pos_le
      have hlast := l.last_le
      have hsize := l.size_eq
      simp only [unsent, List.length_append, List.length_drop, List.length_take]
      omega
    pos_le := Nat.zero_le _
    last_le := le_trans (Nat.sub_le _ _) l.last_le }

/-- The doubling loop; `none` is the limit reached. -/
def growSize (limit last len size : ℕ) (hpos : 0 < size) : Option { s : ℕ // 0 < s } :=
  if len ≤ size - last then some ⟨size, hpos⟩
  else if hsize : limit ≤ size then none
  else growSize limit last len (min (size * 2) limit) (by omega)
termination_by limit - size

theorem growSize_spec {limit last len size : ℕ} {hpos : 0 < size} {s : { s : ℕ // 0 < s }}
    (h : growSize limit last len size hpos = some s) : size ≤ s ∧ len ≤ s - last := by
  induction size, hpos using growSize.induct limit last len with
  | case1 size hpos hfits =>
    rw [growSize, if_pos hfits] at h
    obtain rfl := Option.some.inj h
    exact ⟨le_rfl, hfits⟩
  | case2 size hpos hfits hsize =>
    rw [growSize, if_neg hfits, dif_pos hsize] at h
    cases h
  | case3 size hpos hfits hsize ih =>
    rw [growSize, if_neg hfits, dif_neg hsize] at h
    obtain ⟨hle, hlen⟩ := ih h
    exact ⟨by omega, hlen⟩

/-- The queued bytes in a new buffer of a size that holds them. -/
def moveTo (l : Link) (memory : Bytes) (hpos : 0 < memory.length)
    (hle : l.outSize ≤ memory.length) : Link :=
  { l with
    out := l.out.take l.outLast ++ memory.drop l.outLast
    outSize := memory.length
    size_eq := by
      have hlast := l.last_le
      have hsize := l.size_eq
      simp only [List.length_append, List.length_take, List.length_drop]
      omega
    last_le := le_trans l.last_le hle
    size_pos := hpos }

/-- The last part of `ngx_http_waf_link_reserve`: a bigger buffer. -/
def regrow (palloc : Palloc) (l : Link) (len : ℕ) : Link × Bool :=
  match h : growSize l.outMax l.outLast len l.outSize l.size_pos with
  | none => (l, false)
  | some s =>
    match palloc s with
    | none => (l, false)
    | some memory =>
      (l.moveTo memory (by rw [memory.2]; exact s.2) (by rw [memory.2]; exact (growSize_spec h).1),
        true)

/-- `ngx_http_waf_link_reserve`; `true` is `NGX_OK`. Where nothing has been sent there is nothing to
move and the second test repeats the first. -/
def reserve (palloc : Palloc) (l : Link) (len : ℕ) : Link × Bool :=
  let l := l.rewind
  if len ≤ l.outSize - l.outLast then (l, true)
  else
    let l := if l.outPos ≠ 0 then l.compact else l
    if len ≤ l.outSize - l.outLast then (l, true)
    else l.regrow palloc len

theorem length_unsent (l : Link) : l.unsent.length = l.outLast - l.outPos := by
  have hlast := l.last_le
  have hsize := l.size_eq
  simp only [unsent, List.length_drop, List.length_take]
  omega

@[simp] theorem unsent_rewind (l : Link) : l.rewind.unsent = l.unsent := by
  rw [rewind]
  split
  · next h =>
    have hnil : l.unsent.length = 0 := by rw [length_unsent, h, Nat.sub_self]
    rw [List.length_eq_zero_iff.1 hnil]
    simp [unsent]
  · rfl

theorem room_le_rewind (l : Link) : l.room ≤ l.rewind.room := by
  rw [rewind]
  split
  · exact Nat.sub_le_sub_left (Nat.zero_le _) _
  · exact le_rfl

@[simp] theorem unsent_compact (l : Link) : l.compact.unsent = l.unsent := by
  have hlen : l.outLast - l.outPos = l.unsent.length := l.length_unsent.symm
  rw [unsent, compact]
  simp only [hlen, List.take_left, List.drop_zero]

@[simp] theorem unsent_moveTo (l : Link) (memory : Bytes) (hpos : 0 < memory.length)
    (hle : l.outSize ≤ memory.length) : (l.moveTo memory hpos hle).unsent = l.unsent := by
  have hlen : (l.out.take l.outLast).length = l.outLast := by
    have hlast := l.last_le
    have hsize := l.size_eq
    rw [List.length_take]
    omega
  have htake : ∀ tail : Bytes, (l.out.take l.outLast ++ tail).take l.outLast = l.out.take l.outLast :=
    fun tail => List.take_left' hlen
  rw [unsent, moveTo]
  simp only [htake]
  rfl

theorem unsent_regrow (palloc : Palloc) (l : Link) (len : ℕ) :
    (l.regrow palloc len).1.unsent = l.unsent := by
  rw [regrow]
  split
  · rfl
  · next s hs =>
    cases palloc s with
    | none => rfl
    | some memory => exact l.unsent_moveTo _ _ (by rw [memory.2]; exact (growSize_spec hs).1)

theorem room_regrow (palloc : Palloc) (l : Link) (len : ℕ) (h : (l.regrow palloc len).2 = true) :
    len ≤ (l.regrow palloc len).1.room := by
  rw [regrow] at h ⊢
  split at h
  · cases h
  · next s hs =>
    split at h
    · cases h
    · next memory hmem =>
      have hroom := (growSize_spec hs).2
      simpa [room, moveTo, hmem, memory.2] using hroom

/-- Making room never touches the unsent bytes. -/
theorem unsent_reserve (palloc : Palloc) (l : Link) (len : ℕ) :
    (l.reserve palloc len).1.unsent = l.unsent := by
  rw [reserve]
  dsimp only
  split_ifs
  · exact l.unsent_rewind
  all_goals simp [unsent_regrow]

/-- What was reserved is there. -/
theorem room_reserve (palloc : Palloc) (l : Link) (len : ℕ) (h : (l.reserve palloc len).2 = true) :
    len ≤ (l.reserve palloc len).1.room := by
  rw [reserve] at h ⊢
  dsimp only at h ⊢
  generalize (if l.rewind.outPos ≠ 0 then l.rewind.compact else l.rewind) = moved at h ⊢
  split_ifs at h ⊢ with h₁ h₂
  · exact h₁
  · exact h₂
  · exact room_regrow _ _ _ h

theorem reserve_of_room (palloc : Palloc) (l : Link) {len : ℕ} (h : len ≤ l.room) :
    l.reserve palloc len = (l.rewind, true) := by
  rw [reserve]
  exact if_pos (le_trans h l.room_le_rewind)

/-! ### Writing -/

/-- The `ngx_memcpy` behind the queued bytes. -/
def append (l : Link) (data : Bytes) (h : data.length ≤ l.room) : Link :=
  { l with
    out := l.out.take l.outLast ++ data ++ l.out.drop (l.outLast + data.length)
    outLast := l.outLast + data.length
    size_eq := by
      have hlast := l.last_le
      have hsize := l.size_eq
      rw [room] at h
      simp only [List.length_append, List.length_take, List.length_drop]
      omega
    pos_le := le_trans l.pos_le (Nat.le_add_right _ _)
    last_le := by
      have hlast := l.last_le
      rw [room] at h
      omega }

/-- `ngx_http_waf_link_out`; `true` is `NGX_OK`. -/
def linkOut (palloc : Palloc) (l : Link) (data : Bytes) : Link × Bool :=
  if h : (l.reserve palloc data.length).2 = true then
    ((l.reserve palloc data.length).1.append data (room_reserve palloc l data.length h), true)
  else ((l.reserve palloc data.length).1, false)

theorem unsent_append (l : Link) (data : Bytes) (h : data.length ≤ l.room) :
    (l.append data h).unsent = l.unsent ++ data := by
  have hlen : (l.out.take l.outLast).length = l.outLast := by
    have hlast := l.last_le
    have hsize := l.size_eq
    rw [List.length_take]
    omega
  have htake : ∀ tail : Bytes, (l.out.take l.outLast ++ data ++ tail).take (l.outLast + data.length) =
      l.out.take l.outLast ++ data :=
    fun tail => List.take_left' (by rw [List.length_append, hlen])
  rw [unsent, append]
  simp only [htake]
  rw [List.drop_append_of_le_length (by rw [hlen]; exact l.pos_le), unsent]

theorem room_append (l : Link) (data : Bytes) (h : data.length ≤ l.room) :
    (l.append data h).room = l.room - data.length := by
  simp only [room, append]
  omega

/-- Bytes for which there is room are queued without an allocation. -/
theorem linkOut_of_room (palloc : Palloc) (l : Link) {data : Bytes} (h : data.length ≤ l.room) :
    (l.linkOut palloc data).2 = true ∧ (l.linkOut palloc data).1.unsent = l.unsent ++ data ∧
      l.room - data.length ≤ (l.linkOut palloc data).1.room := by
  have hres := reserve_of_room palloc l h
  have hok : (l.reserve palloc data.length).2 = true := by rw [hres]
  have hle := l.room_le_rewind
  rw [linkOut, dif_pos hok]
  refine ⟨rfl, ?_, ?_⟩
  · rw [unsent_append, hres, unsent_rewind]
  · rw [room_append, hres]
    exact Nat.sub_le_sub_right hle _

/-! ### Sending -/

/-- What `c->send` answers. -/
inductive Sent
  | bytes (n : ℕ)
  | again
  | error

/-- `out_pos` behind `n` more bytes, of which no more than the unsent ones are taken. -/
def advance (l : Link) (n : ℕ) : Link :=
  { l with
    outPos := l.outPos + min n (l.outLast - l.outPos)
    pos_le := by
      have hpos := l.pos_le
      omega }

theorem unsent_advance (l : Link) (n : ℕ) : (l.advance n).unsent = l.unsent.drop n := by
  have hlen := l.length_unsent
  have hdrop : l.unsent.drop (min n (l.outLast - l.outPos)) = l.unsent.drop n := by
    rcases le_total n (l.outLast - l.outPos) with h | h
    · rw [min_eq_left h]
    · rw [min_eq_right h, ← hlen, List.drop_length, List.drop_eq_nil_of_le (by omega)]
  rw [← hdrop]
  simp only [unsent, advance, List.drop_drop]

/-- The loop of `ngx_http_waf_link_flush` over the answers of the socket: the bytes that went out, the
link, and whether it is still up. -/
def flushLoop (l : Link) : List Sent → Bytes × Link × Bool
  | [] => ([], l, true)
  | s :: ss =>
    if l.outPos < l.outLast then
      match s with
      | .again => ([], l, true)
      | .error => ([], l, false)
      | .bytes n =>
        let rest := (l.advance n).flushLoop ss
        (l.unsent.take n ++ rest.1, rest.2)
    else ([], l, true)

/-- `ngx_http_waf_link_flush`; `armed` is `ngx_handle_write_event` succeeding. -/
def flush (l : Link) (answers : List Sent) (armed : Bool) : Bytes × Link × Bool :=
  let (sent, l, up) := l.flushLoop answers
  if up then (sent, l.rewind, armed) else (sent, l, false)

theorem sent_flushLoop (l : Link) (answers : List Sent) :
    (l.flushLoop answers).1 ++ (l.flushLoop answers).2.1.unsent = l.unsent := by
  induction answers generalizing l with
  | nil => rfl
  | cons s ss ih =>
    by_cases hpos : l.outPos < l.outLast
    · cases s with
      | again => simp only [flushLoop, if_pos hpos, List.nil_append]
      | error => simp only [flushLoop, if_pos hpos, List.nil_append]
      | bytes n =>
        simp only [flushLoop, if_pos hpos]
        rw [List.append_assoc, ih, unsent_advance, List.take_append_drop]
    · simp only [flushLoop, if_neg hpos, List.nil_append]

/-- Sending moves bytes from the front of the unsent sequence to the socket, in order. -/
theorem sent_flush (l : Link) (answers : List Sent) (armed : Bool) :
    (l.flush answers armed).1 ++ (l.flush answers armed).2.1.unsent = l.unsent := by
  have hloop := l.sent_flushLoop answers
  rw [flush]
  dsimp only
  split
  · rw [unsent_rewind]
    exact hloop
  · exact hloop

end Link

end Net
