import Rtems.Libfs.Fifo

/-!
# A pipe is a stream of bytes

* `Sound`: the ring is inside of the buffer;
* `readChunk_spec`, `writeChunk_spec`: the copies take bytes from the front and append them at the
  end;
* `Writes`, **`writeLoop_spec`**: a writer writes its data in pieces, and short data in one;
* **`pipe_exact`**: over every interleaving of the calls of any tasks the bytes that were read are
  the first of those that were written.
-/

namespace Rtems.Fifo

open PartialRun List Option

theorem toInt_of_lt {n : ℕ} (h : n < 2 ^ 31) : toInt n = n := by
  unfold toInt; rw [Int.bmod_def]; omega

/-! ## The ring -/

namespace PipeControl

variable {p : PipeControl} {size : ℕ}

structure Sound (p : PipeControl) (size : ℕ) : Prop where
  size_eq : p.size = size
  start : p.start < size
  length : p.length ≤ size

def contents (p : PipeControl) : List UInt8 := Ring.contents p.size p.buffer p.start p.length

theorem Sound.space (hs : p.Sound size) (hsize : size < 2 ^ 31) : p.space = size - p.length := by
  have hlength := hs.length
  unfold PipeControl.space
  rw [hs.size_eq, show size + 2 ^ 32 - p.length = size - p.length + 2 ^ 32 by omega,
    Nat.add_mod_right, Nat.mod_eq_of_lt (by omega)]

theorem Sound.wstart (hs : p.Sound size) (hsize : size < 2 ^ 31) :
    p.wstart = (p.start + p.length) % size := by
  have hstart := hs.start
  have hlength := hs.length
  unfold PipeControl.wstart
  rw [hs.size_eq, Nat.mod_eq_of_lt (show p.start + p.length < 2 ^ 32 by omega)]

variable {pos n : ℕ}

theorem toInt_cells (hpos : pos < size) (hsize : size < 2 ^ 31) :
    toInt ((size + 2 ^ 32 - pos) % 2 ^ 32) = ((size - pos : ℕ) : ℤ) := by
  rw [show size + 2 ^ 32 - pos = size - pos + 2 ^ 32 by omega, Nat.add_mod_right,
    Nat.mod_eq_of_lt (by omega)]
  exact toInt_of_lt (by omega)

theorem copyOut_eq (h : pos + n ≤ p.size) : p.copyOut pos n = some (Ring.cells p.buffer pos n) := by
  unfold copyOut; rw [if_pos ⟨by omega, by omega⟩, Int.toNat_natCast]

theorem copyIn_eq {data : List UInt8} (h : pos + n ≤ p.size) :
    p.copyIn pos n data = some { p with buffer := Ring.put p.buffer pos (data.take n) } := by
  unfold copyIn
  rw [if_pos ⟨by omega, by omega⟩, Int.toNat_natCast]

theorem copyOut_ring (hs : p.Sound size) (hn : n ≤ size) :
    (if ((size - p.start : ℕ) : ℤ) < (n : ℤ) then
      (p.copyOut p.start ((size - p.start : ℕ) : ℤ)).bind fun first =>
        (p.copyOut 0 ((n : ℤ) - ((size - p.start : ℕ) : ℤ))).map fun second => first ++ second
      else p.copyOut p.start n) = some (Ring.contents size p.buffer p.start n) := by
  have hstart := hs.start
  have hsize := hs.size_eq
  rw [Ring.contents_eq_cells hstart hn]
  by_cases hwrap : size - p.start < n
  · rw [if_pos hwrap, if_pos (by omega), copyOut_eq (by omega), bind_some,
      show (n : ℤ) - ((size - p.start : ℕ) : ℤ) = ((n - (size - p.start) : ℕ) : ℤ) by omega,
      copyOut_eq (by omega), map_some]
  · rw [if_neg hwrap, if_neg (by omega), copyOut_eq (by omega)]

theorem readChunk_spec (hs : p.Sound size) (hsize : size < 2 ^ 31) (count : ℕ) :
    ∃ p', p.readChunk count = some (p.contents.take count, p') ∧ p'.Sound size ∧
      p'.contents = p.contents.drop count := by
  have hstart := hs.start
  have hlength := hs.length
  have htake : p.contents.take count =
      Ring.contents size p.buffer p.start (min count p.length) := by
    unfold contents
    rw [hs.size_eq, ← Ring.contents_take (Nat.min_le_right count p.length), take_eq_take_min,
      Ring.length_contents]
  have hdrop : p.contents.drop count = p.contents.drop (min count p.length) := by
    rw [drop_eq_drop_min, contents, Ring.length_contents]
  unfold readChunk
  dsimp only
  rw [hs.size_eq, toInt_cells hstart hsize, copyOut_ring hs (by omega), map_some, htake, hdrop]
  have hmod : (p.start + min count p.length) % 2 ^ 32 = p.start + min count p.length :=
    Nat.mod_eq_of_lt (by omega)
  refine ⟨_, rfl, ⟨rfl, ?_, ?_⟩, ?_⟩
  · dsimp only
    split_ifs
    · omega
    · exact Nat.mod_lt _ (by omega)
  · dsimp only; omega
  · unfold contents
    rw [hs.size_eq, Ring.contents_drop, hmod]
    by_cases hempty : p.length - min count p.length = 0
    · rw [hempty]; rfl
    · rw [if_neg hempty]

theorem copyIn_ring (hs : p.Sound size) (hpos : pos < size) {data : List UInt8}
    (hn : n ≤ size) (hdata : n ≤ data.length) :
    (if ((size - pos : ℕ) : ℤ) < (n : ℤ) then
      (p.copyIn pos ((size - pos : ℕ) : ℤ) data).bind fun p =>
        p.copyIn 0 ((n : ℤ) - ((size - pos : ℕ) : ℤ)) (data.drop ((size - pos : ℕ) : ℤ).toNat)
      else p.copyIn pos n data) =
        some { p with buffer := Ring.write size p.buffer pos (data.take n) } := by
  have hsize := hs.size_eq
  have hlen : (data.take n).length = n := by rw [length_take]; omega
  unfold Ring.write
  rw [hlen]
  by_cases hwrap : size - pos < n
  · have hsecond : 0 + (n - (size - pos)) ≤ p.size := by omega
    rw [if_pos hwrap, if_pos (by omega), copyIn_eq (by omega), bind_some,
      show (n : ℤ) - ((size - pos : ℕ) : ℤ) = ((n - (size - pos) : ℕ) : ℤ) by omega,
      Int.toNat_natCast, take_take, Nat.min_eq_left (by omega), drop_take]
    exact copyIn_eq hsecond
  · rw [if_neg hwrap, if_neg (by omega), copyIn_eq (by omega)]

theorem writeChunk_spec (hs : p.Sound size) (hsize : size < 2 ^ 31) (data : List UInt8) :
    ∃ p', p.writeChunk data = some (min data.length (size - p.length), p') ∧ p'.Sound size ∧
      p'.contents = p.contents ++ data.take (min data.length (size - p.length)) := by
  have hstart := hs.start
  have hlength := hs.length
  have hpos : (p.start + p.length) % size < size := Nat.mod_lt _ (by omega)
  generalize hn : min data.length (size - p.length) = n
  have hfit : n ≤ size := by omega
  have hmany : n ≤ data.length := by omega
  have hlen : (data.take n).length = n := by rw [length_take]; omega
  unfold writeChunk
  dsimp only
  rw [hs.size_eq, hs.space hsize, hs.wstart hsize, toInt_cells hpos hsize, hn,
    copyIn_ring hs hpos hfit hmany, map_some]
  refine ⟨_, rfl, ⟨hs.size_eq, hstart, ?_⟩, ?_⟩
  · dsimp only; omega
  · have hroom : p.length + (data.take n).length ≤ size := by omega
    have hwrite := Ring.contents_write p.buffer hstart hroom
    rw [hlen] at hwrite
    unfold contents
    rw [hs.size_eq]
    exact hwrite

end PipeControl

/-! ## A writer -/

/-- The bytes are in the stream from a position on. -/
def At (stream : List UInt8) (piece : ℕ × List UInt8) : Prop :=
  (stream.drop piece.1).take piece.2.length = piece.2

variable {stream data : List UInt8} {w : Progress}

theorem At.append {piece : ℕ × List UInt8} (h : At stream piece)
    (more : List UInt8) : At (stream ++ more) piece := by
  unfold At at h ⊢
  have hlen : piece.2.length ≤ (stream.drop piece.1).length := by
    conv_lhs => rw [← h]
    exact length_take_le' _ _
  rw [drop_append, take_append_of_le_length hlen, h]

theorem At.new (stream bytes : List UInt8) : At (stream ++ bytes) (stream.length, bytes) := by
  unfold At; rw [drop_left, take_length]

/-- The pieces are the first bytes of the data, and at most one if the data fits into the pipe. -/
structure Pieces (size : ℕ) (data stream : List UInt8) (pieces : List (ℕ × List UInt8))
    (total : ℕ) : Prop where
  bytes : (pieces.map Prod.snd).flatten = data.take total
  total_le : total ≤ data.length
  placed : ∀ piece ∈ pieces, At stream piece
  none : total = 0 → pieces = []
  whole : data.length ≤ size → pieces = [] ∨ ∃ pos, pieces = [(pos, data)]

theorem Pieces.nil (size : ℕ) (data stream : List UInt8) : Pieces size data stream [] 0 :=
  ⟨rfl, Nat.zero_le _, fun _ hmem => absurd hmem not_mem_nil, fun _ => rfl, fun _ => .inl rfl⟩

section

variable {size total : ℕ} {pieces : List (ℕ × List UInt8)}
  (h : Pieces size data stream pieces total)

include h

theorem Pieces.append (more : List UInt8) : Pieces size data (stream ++ more) pieces total :=
  { h with placed := fun piece hmem => (h.placed piece hmem).append more }

theorem Pieces.short (hshort : data.length ≤ size)
    (hlt : total < data.length) : pieces = [] ∧ total = 0 := by
  have hlen : (pieces.map Prod.snd).flatten.length = total := by rw [h.bytes, length_take]; omega
  obtain hnil | ⟨pos, hone⟩ := h.whole hshort
  · rw [hnil] at hlen; exact ⟨hnil, hlen.symm⟩
  · rw [hone] at hlen
    simp only [map_cons, map_nil, flatten_cons, flatten_nil, append_nil] at hlen
    omega

end

structure Writes (size : ℕ) (data stream : List UInt8) (w : Progress) : Prop where
  pieces : Pieces size data stream w.pieces w.written
  chunk_pos : 0 < w.chunk
  first : data.length ≤ size → w.written < data.length → w.chunk = data.length

theorem Writes.begun (size : ℕ) (hdata : data.length ≠ 0)
    (stream : List UInt8) : Writes size data stream (System.begun size data) := by
  unfold System.begun
  refine ⟨Pieces.nil size data stream, ?_, fun hshort _ => if_pos hshort⟩
  dsimp only
  split_ifs <;> omega

theorem Writes.piece {size n : ℕ}
    (h : Writes size data stream w) (hlt : w.written < data.length) (hn : 0 < n)
    (hle : w.written + n ≤ data.length)
    (hchunk : min (data.length - w.written) w.chunk ≤ n) :
    Writes size data (stream ++ (data.drop w.written).take n)
      ⟨w.written + n, 1, w.pieces ++ [(stream.length, (data.drop w.written).take n)]⟩ := by
  have hall : data.length ≤ size → w.pieces = [] ∧ w.written = 0 ∧ n = data.length := by
    intro hshort
    obtain ⟨hnil, hzero⟩ := h.pieces.short hshort hlt
    have := h.first hshort hlt
    exact ⟨hnil, hzero, by omega⟩
  refine ⟨⟨?_, hle, ?_, ?_, ?_⟩, Nat.one_pos, ?_⟩
  · rw [map_append, flatten_append, h.pieces.bytes, take_add]
    simp only [map_cons, map_nil, flatten_cons, flatten_nil, append_nil]
  · intro piece hmem
    obtain hold | hnew := mem_append.mp hmem
    · exact (h.pieces.placed piece hold).append _
    · rw [mem_singleton.mp hnew]; exact At.new _ _
  · intro hzero; dsimp only at hzero; omega
  · intro hshort
    obtain ⟨hnil, hzero, hn'⟩ := hall hshort
    refine .inr ⟨stream.length, ?_⟩
    rw [hnil, hzero, hn', drop_zero, take_length, nil_append]
  · intro hshort hless
    dsimp only at hless
    omega

/-- The result of a call: the number of bytes moved, or an error if there are none. -/
def Tells (result : Except PipeErrno ℕ) (total : ℕ) : Prop :=
  result = .ok total ∨ (∃ e, result = .error e) ∧ total = 0

theorem Progress.tells_result (w : Progress) {ret : Except PipeErrno ℕ} (h : Tells ret 0) :
    Tells (w.result ret) w.written := by
  unfold Progress.result
  split_ifs with hpos
  · exact .inl rfl
  · rwa [show w.written = 0 by omega]

theorem tells_error (e : PipeErrno) : Tells (.error e) 0 := .inr ⟨⟨e, rfl⟩, rfl⟩

/-- What the loop of a writer leaves: its bytes are appended to the contents. -/
structure Wrote (size : ℕ) (data : List UInt8) (p : PipeControl) (stream : List UInt8)
    (r : Option (Except PipeErrno ℕ) × PipeControl × List UInt8 × Progress) : Prop where
  sound : r.2.1.Sound size
  appended : ∃ more, r.2.2.1 = stream ++ more ∧ r.2.1.contents = p.contents ++ more
  writes : Writes size data r.2.2.1 r.2.2.2
  tells : ∀ result, r.1 = some result → Tells result r.2.2.2.written

section

variable {size : ℕ} {p : PipeControl} (hs : p.Sound size) (hw : Writes size data stream w)

include hs hw

theorem Wrote.stop {result : Option (Except PipeErrno ℕ)}
    (htells : ∀ r, result = some r → Tells r w.written) :
    Wrote size data p stream (result, p, stream, w) :=
  ⟨hs, ⟨[], (append_nil _).symm, (append_nil _).symm⟩, hw, htells⟩

theorem Wrote.done : Wrote size data p stream (some (w.result (.ok 0)), p, stream, w) := by
  apply Wrote.stop hs hw
  rintro r ⟨⟩
  exact w.tells_result (.inl rfl)

end

theorem writeLoop_spec {size : ℕ} (hsize : size < 2 ^ 31) (data : List UInt8) (nodelay : Bool)
    (fuel : ℕ) {p : PipeControl} (hs : p.Sound size)
    (hw : Writes size data stream w) (hfuel : data.length - w.written ≤ fuel) :
    ∃ r, writeLoop data nodelay fuel p stream w = some r ∧ Wrote size data p stream r := by
  induction fuel generalizing p stream w with
  | zero => rw [writeLoop, if_neg (by omega)]; exact ⟨_, rfl, Wrote.done hs hw⟩
  | succ fuel ih =>
    rw [writeLoop]
    by_cases hlt : w.written < data.length
    · rw [if_pos hlt]
      by_cases hroom : p.space < w.chunk
      · rw [if_pos hroom]
        refine ⟨_, rfl, Wrote.stop hs hw fun r hr => ?_⟩
        cases nodelay with
        | false => cases hr
        | true => obtain ⟨⟩ := hr; exact w.tells_result (tells_error _)
      · have hpos := hw.chunk_pos
        rw [hs.space hsize] at hroom
        obtain ⟨p', hwrite, hs', hcontents⟩ :=
          PipeControl.writeChunk_spec hs hsize (data.drop w.written)
        rw [length_drop] at hwrite hcontents
        generalize hn : min (data.length - w.written) (size - p.length) = n at hwrite hcontents
        have hw' := hw.piece hlt (n := n) (by omega) (by omega) (by omega)
        obtain ⟨r, hloop, hr⟩ := ih hs' hw' (by dsimp only; omega)
        obtain ⟨more, hstream, hmore⟩ := hr.appended
        rw [if_neg (by rw [hs.space hsize]; exact hroom), hwrite, bind_some]
        refine ⟨r, hloop, { hr with appended := ⟨(data.drop w.written).take n ++ more, ?_, ?_⟩ }⟩
        · rw [hstream, append_assoc]
        · rw [hmore, hcontents, append_assoc]
    · rw [if_neg hlt]; exact ⟨_, rfl, Wrote.done hs hw⟩

/-! ## Every interleaving -/

/-- What a call that returned tells of the stream. -/
def Return.Right (size : ℕ) (stream : List UInt8) : Return → Prop
  | .read bytes result => Tells result bytes.length
  | .write data pieces result => ∃ total, Pieces size data stream pieces total ∧ Tells result total

variable {r : Return}

theorem Return.Right.append {size : ℕ}
    (h : r.Right size stream) (more : List UInt8) : r.Right size (stream ++ more) := by
  cases r with
  | read bytes result => exact h
  | write data pieces result =>
    obtain ⟨total, hpieces, htells⟩ := h; exact ⟨total, hpieces.append more, htells⟩

def Return.bytesRead : Return → List UInt8
  | .read bytes _ => bytes
  | .write _ _ _ => []

namespace System

variable {T : Type} {s : System T} {size : ℕ}

def bytesRead (s : System T) : List UInt8 := (s.returns.map Return.bytesRead).flatten

structure Good (s : System T) (size : ℕ) : Prop where
  sound : s.pipe.Sound size
  stream : s.stream = s.bytesRead ++ s.pipe.contents
  returns : ∀ r ∈ s.returns, r.Right size s.stream
  writers : ∀ t data nodelay w, s.calls t = some (.write data nodelay w) →
    Writes size data s.stream w

theorem good_initial (hpos : 1 ≤ size) : (initial size : System T).Good size :=
  ⟨⟨rfl, hpos, Nat.zero_le _⟩, rfl, fun _ hmem => absurd hmem not_mem_nil,
    fun _ _ _ _ hcall => by cases hcall⟩

theorem Good.entered (hs : s.Good size) {p : PipeControl} {more : List UInt8}
    (hsound : p.Sound size) (hcontents : p.contents = s.pipe.contents ++ more) :
    ({ s with pipe := p, stream := s.stream ++ more } : System T).Good size := by
  refine ⟨hsound, ?_, fun r hmem => (hs.returns r hmem).append more, ?_⟩
  · show s.stream ++ more = s.bytesRead ++ p.contents
    rw [hs.stream, hcontents, append_assoc]
  · intro t data nodelay w hcall
    have hw := hs.writers t data nodelay w hcall
    exact { hw with pieces := hw.pieces.append more }

theorem Good.left (hs : s.Good size) {p : PipeControl} (hsound : p.Sound size)
    (hcontents : s.pipe.contents = r.bytesRead ++ p.contents) (hr : r.Right size s.stream) :
    ({ s with pipe := p, returns := s.returns ++ [r] } : System T).Good size := by
  refine ⟨hsound, ?_, ?_, hs.writers⟩
  · show s.stream = ((s.returns ++ [r]).map Return.bytesRead).flatten ++ p.contents
    rw [map_append, flatten_append, map_singleton, flatten_singleton, append_assoc, ← hcontents]
    exact hs.stream
  · intro r' hmem
    obtain hold | hnew := mem_append.mp hmem
    · exact hs.returns r' hold
    · rw [mem_singleton.mp hnew]; exact hr

variable [DecidableEq T]

section

variable (hs : s.Good size)

include hs

theorem Good.setCall (t : T) {c : Option Call}
    (hc : ∀ data nodelay w, c = some (.write data nodelay w) → Writes size data s.stream w) :
    ({ s with calls := Function.update s.calls t c } : System T).Good size := by
  refine ⟨hs.sound, hs.stream, hs.returns, fun u data nodelay w hcall => ?_⟩
  dsimp only at hcall ⊢
  by_cases hu : u = t
  · rw [hu, Function.update_self] at hcall; exact hc data nodelay w hcall
  · rw [Function.update_of_ne hu] at hcall; exact hs.writers u data nodelay w hcall

theorem Good.finish (t : T) {p : PipeControl}
    (hsound : p.Sound size) (hcontents : s.pipe.contents = r.bytesRead ++ p.contents)
    (hr : r.Right size s.stream) : (({ s with pipe := p } : System T).finish t r).Good size :=
  (hs.left hsound hcontents hr).setCall t fun _ _ _ h => by cases h

variable {result : Except PipeErrno ℕ}

theorem Good.finishWrite (t : T) {data : List UInt8} {w : Progress}
    (hw : Writes size data s.stream w)
    (hr : Tells result w.written) : (s.finish t (.write data w.pieces result)).Good size :=
  hs.finish t hs.sound rfl ⟨w.written, hw.pieces, hr⟩

theorem Good.finishRead (t : T) (hr : Tells result 0) : (s.finish t (.read [] result)).Good size :=
  hs.finish t hs.sound rfl hr

theorem Good.reading (hsize : size < 2 ^ 31) (t : T) (count : ℕ)
    (nodelay : Bool) : ∃ s', s.reading t count nodelay = some s' ∧ s'.Good size := by
  unfold System.reading PipeControl.readSection
  by_cases hempty : s.pipe.length = 0
  · split_ifs
    · exact ⟨_, rfl, hs.finishRead t (.inl rfl)⟩
    · exact ⟨_, rfl, hs.finishRead t (tells_error _)⟩
    · exact ⟨_, rfl, hs.setCall t fun _ _ _ h => by cases h⟩
  · rw [if_neg hempty]
    obtain ⟨p', hread, hsound, hcontents⟩ := PipeControl.readChunk_spec hs.sound hsize count
    rw [hread]
    refine ⟨_, rfl, hs.finish t hsound ?_ (.inl rfl)⟩
    rw [hcontents]
    exact (take_append_drop count _).symm

theorem Good.writing (hsize : size < 2 ^ 31) (t : T) {data : List UInt8}
    (nodelay : Bool) {w : Progress} (hw : Writes size data s.stream w) :
    ∃ s', s.writing t data nodelay w = some s' ∧ s'.Good size := by
  unfold System.writing
  by_cases hreaders : s.pipe.readers = 0
  · rw [if_pos hreaders]; exact ⟨_, rfl, hs.finishWrite t hw (w.tells_result (tells_error _))⟩
  · rw [if_neg hreaders]
    obtain ⟨⟨result, p', stream', w'⟩, hloop, hwrote⟩ :=
      writeLoop_spec hsize data nodelay _ hs.sound hw (Nat.le_refl _)
    obtain ⟨more, hstream, hcontents⟩ := hwrote.appended
    subst hstream
    have hs' := hs.entered hwrote.sound hcontents
    rw [hloop, map_some]
    refine ⟨_, rfl, ?_⟩
    cases result with
    | none => apply hs'.setCall t; rintro _ _ _ ⟨⟩; exact hwrote.writes
    | some result => exact hs'.finishWrite t hwrote.writes (hwrote.tells result rfl)

theorem Good.step (hsize : size < 2 ^ 31) (a : Action T) :
    ∃ s', s.step a = some s' ∧ s'.Good size := by
  cases a with
  | read t count nodelay locked =>
    rw [System.step]
    split
    · exact ⟨_, rfl, hs⟩
    · split_ifs
      · exact ⟨_, rfl, hs.finishRead t (tells_error _)⟩
      · exact hs.reading hsize t count nodelay
  | write t data nodelay locked =>
    rw [System.step]
    split
    · exact ⟨_, rfl, hs⟩
    · split_ifs with hdata hlocked
      · exact ⟨_, rfl, hs.finish t hs.sound rfl ⟨0, Pieces.nil _ _ _, .inl rfl⟩⟩
      · exact ⟨_, rfl, hs.finish t hs.sound rfl ⟨0, Pieces.nil _ _ _, tells_error _⟩⟩
      · exact hs.writing hsize t nodelay (hs.sound.size_eq ▸ Writes.begun _ hdata _)
  | wake t waited locked =>
    rw [System.step]
    split
    · exact ⟨_, rfl, hs⟩
    · split_ifs
      · exact ⟨_, rfl, hs.finishRead t (tells_error _)⟩
      · exact hs.reading hsize t _ _
    · rename_i data nodelay w hcall
      have hw := hs.writers t data nodelay w hcall
      split_ifs
      · exact ⟨_, rfl, hs.finishWrite t hw (w.tells_result (tells_error _))⟩
      · exact hs.writing hsize t nodelay hw
  | users readers writers =>
    exact ⟨_, rfl, ⟨hs.sound.size_eq, hs.sound.start, hs.sound.length⟩, hs.stream, hs.returns,
      hs.writers⟩

end

/-- **A pipe is a stream of bytes** in every interleaving, and data that fits is written at once or
not at all. -/
theorem pipe_exact (hpos : 1 ≤ size) (hsize : size < 2 ^ 31) (as : List (Action T)) :
    ∃ s, run step (initial size) as = some s ∧ s.pipe.length ≤ size ∧ s.pipe.start < size ∧
      s.bytesRead <+: s.stream ∧ ∀ r ∈ s.returns, r.Right size s.stream := by
  obtain ⟨s, hrun, hs⟩ := run_total step
    (fun s a (hs : s.Good size) => hs.step hsize a) as (good_initial hpos)
  exact ⟨s, hrun, hs.sound.length, hs.sound.start, ⟨s.pipe.contents, hs.stream.symm⟩, hs.returns⟩

theorem pipe_exact_wrap : ∃ s : System (Fin 3), run step (initial 4)
      [.users 1 2, .write 0 [1, 2, 3] false true, .write 1 [4, 5] false true, .read 2 2 false true,
        .wake 1 true true, .read 2 9 false true] = some s ∧
    s.bytesRead = [1, 2, 3, 4, 5] ∧ s.pipe.length ≤ 4 ∧ s.pipe.start < 4 ∧
    s.bytesRead <+: s.stream ∧ ∀ r ∈ s.returns, r.Right 4 s.stream := by
  refine exists_imp_of_any (by decide +kernel)
    fun s hrun hread => ⟨hread, ?_⟩
  obtain ⟨s', hrun', hs⟩ := pipe_exact (T := Fin 3) (show 1 ≤ 4 by decide) (by decide) _
  cases hrun.symm.trans hrun'
  exact hs

/-- With `2 ^ 31` bytes, the number up to the end is negative as an `int`. -/
theorem exists_copy_out_of_buffer : ∃ (size : ℕ) (as : List (Action Unit)), 1 ≤ size ∧
    (run step (initial size) as).isNone = true :=
  ⟨2 ^ 31, [.users 1 1, .write () [0] false true], by decide, by decide +kernel⟩

end System

end Rtems.Fifo
