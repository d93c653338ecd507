import Rtems.Lib.ByteFile
import Rtems.Rfs.FileMap

/-!
# The bytes of a file

* `Opened`: the blocks of an open file have its bytes;
* `Placed`: a handle is at a position of the file;
* **`readLoop_spec`**: the loop of a read returns the bytes up to the end of the file;
* **`writeLoop_spec`**: the loop of a write overwrites a part of the file, unless it ends inside of
  a last block that is full.
-/

namespace Rtems.Rfs

namespace FileShared

open Function ByteFile List Option Nat

variable {A : BlockAllocator} {Ok : A.State → Prop} {Other : ℕ → Prop} {g : Geometry}
  {f f' : FileShared A} {handle : FileHandle} {l : List ℕ} {content : List UInt8} {q b : ℕ}

/-! ## The invariants -/

def blockByte (disk : ℕ → Block) (l : List ℕ) (k o : ℕ) : UInt8 :=
  match l[k]? with
  | none => 0
  | some b => disk b o

theorem blockByte_congr {disk disk' : ℕ → Block} (h : ∀ c ∈ l, disk' c = disk c) :
    blockByte disk' l = blockByte disk l := by
  funext k o
  unfold blockByte
  cases hb : l[k]? with
  | none => rfl
  | some b => exact congrFun (h b (mem_of_getElem? hb)) o

/-- The bytes of a file are in the blocks of its map. -/
structure Opened (Ok : A.State → Prop) (Other : ℕ → Prop) (g : Geometry) (f : FileShared A)
    (l : List ℕ) (content : List UInt8) : Prop where
  mapped : Mapped Ok Other g f.state l
  bytes : Shows g.blockSize (blockByte f.state.disk l) content
  size : f.state.map.size.Is g content.length
  shared : f.size = f.state.map.size

theorem Opened.fileSize (h : Opened Ok Other g f l content) : f.fileSize g = content.length := by
  unfold FileShared.fileSize; rw [h.shared]; exact h.size.getSize

/-- A handle at a position, with the buffer of it if any. -/
structure Placed (g : Geometry) (f : FileShared A) (l : List ℕ) (handle : FileHandle) (q : ℕ) :
    Prop where
  bno : handle.bpos.bno = q / g.blockSize
  boff : handle.bpos.boff = q % g.blockSize
  buffer : ∀ b, handle.buffer = some b →
    l[q / g.blockSize]? = some b ∧ f.state.map.bpos.bno = q / g.blockSize

theorem Opened.of_find (h : Opened Ok Other g f l content) {s : MapState A}
    (hm : Mapped Ok Other g s l) (hdisk : s.disk = f.state.disk)
    (hsize : s.map.size = f.state.map.size) :
    Opened Ok Other g { f with state := s } l content := by
  refine ⟨hm, ?_, ?_, ?_⟩
  · rw [hdisk]; exact h.bytes
  · rw [hsize]; exact h.size
  · rw [hsize]; exact h.shared

/-! ## Reads -/

theorem lastBlock_iff {p : BlockPos} {s : BlockSize} (hpos : 0 < s.count) (hlt : s.count < 2 ^ 32) :
    p.LastBlock s ↔ p.bno + 1 = s.count := by
  unfold BlockPos.LastBlock
  rw [show s.count + 2 ^ 32 - 1 = s.count - 1 + 2 ^ 32 by omega, add_mod_right,
    mod_eq_of_lt (by omega)]
  omega

theorem sub_mod_of_le {w x y : ℕ} (hle : y ≤ x) (hlt : x - y < 2 ^ w) :
    (x + 2 ^ w - y) % 2 ^ w = x - y := by
  rw [show x + 2 ^ w - y = x - y + 2 ^ w by omega, add_mod_right, mod_eq_of_lt hlt]

theorem available_read (hg : g.FitsFile) (h : Opened Ok Other g f l content)
    (hboff : handle.bpos.boff = q % g.blockSize)
    (hbno : f.state.map.bpos.bno = q / g.blockSize) (hin : q / g.blockSize < l.length)
    (hq : q ≤ content.length) : f.available g handle true =
      min (g.blockSize - q % g.blockSize) (content.length - q) := by
  have hcount := h.mapped.count
  have hlen := h.mapped.length_lt hg.toFits
  have hmod := mod_lt q hg.pos
  have hdiv := div_add_mod q g.blockSize
  have htotal := h.size.total
  have hoffset := h.size.offset
  have hsize := hg.size
  have hlast : f.state.map.bpos.LastBlock f.state.map.size ↔ q / g.blockSize + 1 = l.length := by
    rw [lastBlock_iff (by omega) (by omega), hbno, hcount]
  have hstart : g.blockSize * (q / g.blockSize) + g.blockSize =
      (q / g.blockSize + 1) * g.blockSize := by
    rw [Nat.add_mul, Nat.one_mul, Nat.mul_comm]
  rw [hcount] at htotal
  unfold available
  simp only [true_and, hlast, hboff]
  by_cases hcut : q / g.blockSize + 1 = l.length ∧ f.state.map.size.offset ≠ 0
  · rw [if_pos hcut]
    rw [hcut.1] at hstart
    rw [if_neg hcut.2] at htotal
    rw [sub_mod_of_le (by omega) (by omega)]
    omega
  · rw [if_neg hcut, sub_mod_of_le (by omega) (by omega)]
    by_cases hzero : f.state.map.size.offset = 0
    · have hle := mul_le_mul_right g.blockSize (show q / g.blockSize + 1 ≤ l.length from hin)
      rw [if_pos hzero] at htotal
      omega
    · have hle := mul_le_mul_right g.blockSize (show q / g.blockSize + 1 + 1 ≤ l.length by omega)
      rw [Nat.add_mul (q / g.blockSize + 1), Nat.one_mul] at hle
      rw [if_neg hzero] at htotal
      omega

theorem handleRequest_read (hbuf : handle.buffer = none) (block : ℕ) :
    f.handleRequest handle block true = (f, { handle with buffer := some block }) := by
  unfold handleRequest
  rw [if_neg (by rw [hbuf]; exact nofun), if_pos rfl]

section

variable (hg : g.FitsFile)

include hg

theorem ioStart_read (h : Opened Ok Other g f l content)
    (hp : Placed g f l handle q) (hq : q ≤ content.length) (count : ℕ) :
    ∃ f' handle', f.ioStart g handle count true =
        some (.ok (min (g.blockSize - q % g.blockSize) (content.length - q)), f', handle') ∧
      Opened Ok Other g f' l content ∧ Placed g f' l handle' q ∧
      (q < content.length → handle'.buffer ≠ none) ∧
      (handle'.buffer ≠ none → q / g.blockSize < l.length) := by
  unfold ioStart
  cases hbuf : handle.buffer with
  | some b =>
    obtain ⟨hb, hbno⟩ := hp.buffer b hbuf
    have hin := (List.getElem?_eq_some_iff.mp hb).1
    rw [if_pos (some_ne_none b), available_read hg h hp.boff hbno hin hq]
    exact ⟨f, handle, rfl, h, hp, fun _ => by rw [hbuf]; exact some_ne_none b, fun _ => hin⟩
  | none =>
    rw [if_neg (fun hne => hne rfl)]
    by_cases hin : q / g.blockSize < l.length
    · have hb : l[handle.bpos.bno]? = some l[q / g.blockSize] := by
        rw [hp.bno, getElem?_eq_getElem hin]
      obtain ⟨s', hs', hm, hdisk, hsize, hbno⟩ := h.mapped.find hg.toFits hb
      rw [hs', bind_some]
      have h' := h.of_find hm hdisk hsize
      have hp' : Placed g { f with state := s' } l
          { handle with buffer := some l[q / g.blockSize] } q := by
        refine ⟨hp.bno, hp.boff, fun b hb' => ?_⟩
        rw [← some_inj.mp hb', getElem?_eq_getElem hin]
        exact ⟨rfl, hbno.trans hp.bno⟩
      refine ⟨_, _, ?_, h', hp', fun _ => some_ne_none _, fun _ => hin⟩
      simp only [requested, Bool.true_or]
      rw [handleRequest_read hbuf, available_read hg h' hp'.boff (hbno.trans hp.bno) hin hq]
    · have hcount := h.mapped.count
      have hpast : l.length ≤ handle.bpos.bno := by rw [hp.bno]; omega
      obtain ⟨hend, -⟩ := h.size.eq_of_le_div hg.pos hq (by omega)
      rw [h.mapped.past hpast, bind_some]
      dsimp only
      rw [if_pos ⟨rfl, rfl⟩]
      refine ⟨_, _, ?_, h, hp, fun hlt => absurd hend (by omega), fun hne => absurd hbuf hne⟩
      rw [show min (g.blockSize - q % g.blockSize) (content.length - q) = 0 by omega]

theorem advanced_eq {bpos : BlockPos} (hbno : bpos.bno = q / g.blockSize)
    (hboff : bpos.boff = q % g.blockSize) {size : ℕ}
    (hsize : size ≤ g.blockSize - q % g.blockSize) : advanced g bpos size =
      ⟨(q + size) / g.blockSize, (q + size) % g.blockSize, bpos.block⟩ := by
  have hmod := mod_lt q hg.pos
  have hdiv := div_add_mod q g.blockSize
  unfold advanced
  rw [hbno, hboff]
  by_cases hfull : g.blockSize ≤ q % g.blockSize + size
  · obtain ⟨hquot, hrem⟩ := (Nat.div_mod_unique hg.pos).mpr
      ⟨show 0 + g.blockSize * (q / g.blockSize + 1) = q + size by rw [Nat.mul_add]; omega, hg.pos⟩
    rw [if_pos hfull, hquot, hrem, show q % g.blockSize + size - g.blockSize = 0 by omega]
  · obtain ⟨hquot, hrem⟩ := (Nat.div_mod_unique hg.pos).mpr
      ⟨show q % g.blockSize + size + g.blockSize * (q / g.blockSize) = q + size by omega, by omega⟩
    rw [if_neg hfull, hquot, hrem]

theorem Placed.advance (hp : Placed g f l handle q) {size : ℕ}
    (hsize : size ≤ g.blockSize - q % g.blockSize) (f' : FileShared A) (l' : List ℕ) :
    Placed g f' l' ⟨advanced g handle.bpos size, none⟩ (q + size) := by
  rw [advanced_eq hg hp.bno hp.boff hsize]
  exact ⟨rfl, rfl, fun b hb => by cases hb⟩

theorem readData_eq (h : Opened Ok Other g f l content)
    (hp : Placed g f l handle q) (hbuf : handle.buffer ≠ none) {size : ℕ}
    (hsize : size ≤ g.blockSize - q % g.blockSize) (hin : q + size ≤ content.length) :
    f.readData g handle size = some ((content.drop q).take size) := by
  obtain ⟨b, hb⟩ := ne_none_iff_exists'.mp hbuf
  have hmod := mod_lt q hg.pos
  unfold readData
  rw [hb, bind_some, if_pos (by rw [hp.boff]; omega)]
  rw [← h.bytes.slice hg.pos hin (by omega)]
  unfold blockByte Block.slice
  rw [(hp.buffer b hb).1, hp.boff]

theorem readLoop_spec : ∀ (fuel count q : ℕ) (data : List UInt8)
    (f : FileShared A) (handle : FileHandle), count ≤ fuel → Opened Ok Other g f l content →
    Placed g f l handle q → q ≤ content.length →
    (handle.buffer ≠ none → content.length % g.blockSize ≠ 0) →
    ∃ f' handle', readLoop g fuel count data f handle =
        some (.ok (data ++ (content.drop q).take count), f', handle') ∧
      Opened Ok Other g f' l content ∧
      (handle'.buffer ≠ none → content.length % g.blockSize ≠ 0) := by
  intro fuel
  induction fuel with
  | zero =>
    intro count q data f handle hfuel h hp hq hheld
    obtain rfl : count = 0 := by omega
    unfold readLoop
    rw [if_pos rfl, take_zero, append_nil]
    exact ⟨f, handle, rfl, h, hheld⟩
  | succ fuel ih =>
    intro count q data f handle hfuel h hp hq hheld
    unfold readLoop
    by_cases hzero : count = 0
    · rw [if_pos hzero, hzero, take_zero, append_nil]; exact ⟨f, handle, rfl, h, hheld⟩
    · rw [if_neg hzero]
      obtain ⟨f1, handle1, hstart, h1, hp1, hbuf1, hin1⟩ := ioStart_read hg h hp hq 0
      rw [hstart, bind_some]
      dsimp only
      have hmod := mod_lt q hg.pos
      by_cases hend : q = content.length
      · -- The end of the file inside of its last block keeps the buffer.
        rw [if_pos (by omega), hend, drop_length, take_nil, append_nil]
        refine ⟨f1, handle1, rfl, h1, fun hne => ?_⟩
        apply h1.size.mod_ne_zero hg.pos
        rw [h1.mapped.count, ← hend]
        exact hin1 hne
      · rw [if_neg (by omega)]
        generalize hsize : min (min (g.blockSize - q % g.blockSize) (content.length - q)) count = c
        rw [readData_eq hg h1 hp1 (hbuf1 (by omega)) (by omega) (by omega), bind_some]
        dsimp only [ioEnd]
        rw [if_neg (fun hno => Bool.noConfusion hno.1)]
        obtain ⟨f', handle', hrun, h', hheld'⟩ := ih (count - c) (q + c)
          (data ++ (content.drop q).take c) f1 _ (by omega) h1
          (hp1.advance hg (by omega) f1 l) (by omega) (fun hne => absurd rfl hne)
        refine ⟨f', handle', ?_, h', hheld'⟩
        rw [hrun, append_assoc, ← drop_drop, ← take_add]
        rw [show c + (count - c) = count by omega]

end

/-! ## Writes -/

def Refused (Ok : A.State → Prop) (Other : ℕ → Prop) (g : Geometry) (l : List ℕ) : Prop :=
  ∃ (s : MapState A) (e : Errno) (s' : MapState A), Mapped Ok Other g s l ∧
    s.blockMapGrow g 1 = some (some e, none, s')

/-- The block of a write, in the file or behind it, with any bytes if filled. -/
structure Ready (Ok : A.State → Prop) (Other : ℕ → Prop) (g : Geometry) (f f' : FileShared A)
    (l l' : List ℕ) (length q count b : ℕ) : Prop where
  mapped : Mapped Ok Other g f'.state l'
  block : l'[q / g.blockSize]? = some b
  shared : f'.size = f.size
  blocks : l' = l ∧ f'.state.map.size = f.state.map.size ∨
    l' = l ++ [b] ∧ q = length ∧ length = l.length * g.blockSize ∧
      f'.state.map.size = ⟨l.length + 1, 0⟩
  frame : ∀ c ∈ l, c ≠ b → f'.state.disk c = f.state.disk c
  same : b ∈ l → f'.state.disk b = f.state.disk b ∨ q % g.blockSize = 0 ∧ g.blockSize ≤ count

section

variable (hg : g.FitsFile) (hboff : handle.bpos.boff = q % g.blockSize)

include hg hboff

theorem available_write : f.available g handle false = g.blockSize - q % g.blockSize := by
  have hmod := mod_lt q hg.pos
  have hsize := hg.size
  unfold available
  simp only [Bool.false_eq_true, false_and, if_false, hboff]
  exact sub_mod_of_le (by omega) (by omega)

theorem requested_read
    (hbuf : handle.buffer = none) (block : ℕ) : f.requested g handle block true false =
      (.ok (g.blockSize - q % g.blockSize), f, { handle with buffer := some block }) := by
  unfold requested
  rw [handleRequest_read hbuf]
  exact congrArg (fun x => (Except.ok x, _)) (available_write hg hboff)

theorem requested_get
    (hbuf : handle.buffer = none) (block : ℕ) : f.requested g handle block false false =
      (.ok (g.blockSize - q % g.blockSize), { f with
        state := { f.state with disk := update f.state.disk block (f.unread 0) }
        unread := fun i => f.unread (i + 1) }, { handle with buffer := some block }) := by
  unfold requested handleRequest
  rw [if_neg (by rw [hbuf]; exact nofun), if_neg Bool.false_ne_true]
  exact congrArg (fun x => (Except.ok x, _)) (available_write hg hboff)

end

theorem ioStart_write (hA : A.Correct Ok g.blocks) (hg : g.FitsFile)
    (h : Opened Ok Other g f l content) (hp : Placed g f l handle q) (hq : q ≤ content.length)
    (count : ℕ) :
    (∃ e f', f.ioStart g handle count false = some (.error e, f', handle) ∧
      Opened Ok Other g f' l content ∧ handle.buffer = none ∧ Refused Ok Other g l) ∨
    ∃ f' l' b, f.ioStart g handle count false =
        some (.ok (g.blockSize - q % g.blockSize), f', { handle with buffer := some b }) ∧
      Ready Ok Other g f f' l l' content.length q count b := by
  unfold ioStart
  cases hbuf : handle.buffer with
  | some b =>
    obtain ⟨hb, -⟩ := hp.buffer b hbuf
    have hhandle : ({ handle with buffer := some b } : FileHandle) = handle := by rw [← hbuf]
    rw [if_pos (some_ne_none b), available_write hg hp.boff]
    refine .inr ⟨f, l, b, by rw [hhandle], ⟨h.mapped, hb, rfl, .inl ⟨rfl, rfl⟩, fun _ _ _ => rfl,
      fun _ => .inl rfl⟩⟩
  | none =>
    by_cases hin : q / g.blockSize < l.length
    · right
      have hb : l[handle.bpos.bno]? = some l[q / g.blockSize] := by
        rw [hp.bno, getElem?_eq_getElem hin]
      obtain ⟨s', hs', hm, hdisk, hsize, hbno⟩ := h.mapped.find hg.toFits hb
      rw [hs', bind_some]
      dsimp only [Bool.false_or]
      by_cases hpart : handle.bpos.boff ≠ 0 ∨ count < g.blockSize
      · rw [decide_eq_true hpart, Bool.or_true, requested_read hg hp.boff hbuf]
        exact ⟨_, l, _, rfl, hm, getElem?_eq_getElem hin, rfl, .inl ⟨rfl, hsize⟩,
          fun c _ _ => congrFun hdisk c, fun _ => .inl (congrFun hdisk _)⟩
      · rw [decide_eq_false hpart, Bool.or_false, requested_get hg hp.boff hbuf]
        rw [hp.boff] at hpart
        refine ⟨_, l, _, rfl, hm.write (getElem_mem hin) _, getElem?_eq_getElem hin, rfl,
          .inl ⟨rfl, hsize⟩, ?_, fun _ => .inr (by omega)⟩
        intro c _ hne
        exact (update_of_ne hne _ _).trans (congrFun hdisk c)
    · have hcount := h.mapped.count
      have hpast : l.length ≤ handle.bpos.bno := by rw [hp.bno]; omega
      obtain ⟨hend, hfull⟩ := h.size.eq_of_le_div hg.pos hq (by omega)
      rw [hcount] at hfull
      rw [h.mapped.past hpast, bind_some]
      dsimp only
      rcases h.mapped.grow hA hg with
        ⟨e, s', hs', hm, hdisk, hsize, -⟩ | ⟨b, s', hs', hm, hdisk, hsize, -⟩
      · left
        rw [hs', bind_some]
        refine ⟨e, _, rfl, ⟨hm, ?_, ?_, ?_⟩, rfl, f.state, e, s', h.mapped, hs'⟩
        · rw [blockByte_congr fun c hc => hdisk c (.inr hc)]; exact h.bytes
        · rw [hsize]; exact h.size
        · rw [hsize]; exact h.shared
      · right
        rw [hs', bind_some]
        dsimp only
        rw [requested_get hg hp.boff hbuf]
        have hquot : q / g.blockSize = l.length := by
          rw [hend, hfull, Nat.mul_div_cancel _ hg.pos]
        have hnew : b ∉ l := fun hb =>
          (nodup_append.mp hm.nodup).2.2 b hb b (mem_singleton_self b) rfl
        have hlast : b ∈ l ++ [b] := mem_append_right _ (mem_singleton_self b)
        refine ⟨_, l ++ [b], b, rfl, hm.write hlast _, ?_, rfl, .inr ⟨rfl, hend, hfull, hsize⟩, ?_,
          fun hb => absurd hb hnew⟩
        · rw [hquot, getElem?_append_right (Nat.le_refl _), Nat.sub_self]; rfl
        · intro c hc hne; exact (update_of_ne hne _ _).trans (hdisk c (.inr hc))

/-- A write that ends inside a full last block. -/
def EndsInside (g : Geometry) (length e : ℕ) : Prop :=
  length % g.blockSize = 0 ∧ length < e + g.blockSize ∧ e < length

instance (g : Geometry) (length e : ℕ) : Decidable (EndsInside g length e) := by
  unfold EndsInside
  infer_instance

theorem not_endsInside_of_dvd {length e : ℕ} (he : g.blockSize ∣ e) : ¬ EndsInside g length e := by
  rintro ⟨hmod, hlt, hlt'⟩
  obtain ⟨k, rfl⟩ := he
  obtain ⟨m, rfl⟩ := dvd_of_mod_eq_zero hmod
  rw [← mul_succ] at hlt
  have h1 := Nat.lt_of_mul_lt_mul_left hlt
  have h2 := Nat.lt_of_mul_lt_mul_left hlt'
  omega

theorem Ready.bytes (hg : g.FitsFile) (h : Opened Ok Other g f l content) {l' : List ℕ} {count : ℕ}
    (hr : Ready Ok Other g f f' l l' content.length q count b) (hq : q ≤ content.length)
    {data : List UInt8} (hlen : data.length = min (g.blockSize - q % g.blockSize) count) :
    Shows g.blockSize (blockByte (update f'.state.disk b
      ((f'.state.disk b).copy (q % g.blockSize) data)) l') (splice content q data) := by
  have hmod := mod_lt q hg.pos
  refine h.bytes.splice hg.pos hq (by omega) ?_ ?_
  · intro j x hx
    unfold blockByte
    rw [hr.block]
    dsimp only
    rw [update_self, Block.copy, if_pos (Nat.le_add_right _ _), Nat.add_sub_cancel_left, hx,
      getD_some]
  · intro i hi hout
    have hin : i / g.blockSize < l.length := by
      rw [← h.mapped.count]; exact h.size.div_lt hg.pos hi
    have hold : l'[i / g.blockSize]? = l[i / g.blockSize]? := by
      rcases hr.blocks with ⟨rfl, -⟩ | ⟨rfl, -⟩
      · rfl
      · exact getElem?_append_left hin
    unfold blockByte
    rw [hold, getElem?_eq_getElem hin]
    dsimp only
    by_cases hblock : l[i / g.blockSize] = b
    · -- The byte is in the block that is written, but not in the part.
      have hindex : i / g.blockSize = q / g.blockSize := by
        have hget : l'[i / g.blockSize]? = some b := by
          rw [hold, getElem?_eq_getElem hin, hblock]
        obtain ⟨hlt, hfirst⟩ := List.getElem?_eq_some_iff.mp hget
        obtain ⟨hlt', hsecond⟩ := List.getElem?_eq_some_iff.mp hr.block
        exact (List.Nodup.getElem_inj_iff hr.mapped.nodup).mp (hfirst.trans hsecond.symm)
      have hmem : b ∈ l := hblock ▸ getElem_mem hin
      have hdivi := div_add_mod i g.blockSize
      have hdivq := div_add_mod q g.blockSize
      have hmodi := mod_lt i hg.pos
      rw [hindex] at hdivi
      rw [hblock, update_self, Block.copy]
      have hskip : (if q % g.blockSize ≤ i % g.blockSize then
          data[i % g.blockSize - q % g.blockSize]?.getD (f'.state.disk b (i % g.blockSize))
          else f'.state.disk b (i % g.blockSize)) = f'.state.disk b (i % g.blockSize) := by
        split_ifs with hle
        · rw [getElem?_eq_none (by omega), getD_none]
        · rfl
      rw [hskip]
      rcases hr.same hmem with hsame | ⟨hzero, hfull⟩
      · rw [hsame]
      · omega
    · rw [update_of_ne hblock, hr.frame _ (getElem_mem hin) hblock]

theorem Ready.chunk (hg : g.FitsFile) (h : Opened Ok Other g f l content)
    (hp : Placed g f l handle q) (hq : q ≤ content.length) {l' : List ℕ} {count : ℕ}
    (hr : Ready Ok Other g f f' l l' content.length q count b) {data : List UInt8}
    (hlen : data.length = min (g.blockSize - q % g.blockSize) count) (hpos : 0 < data.length)
    (hends : ¬ EndsInside g content.length (q + data.length)) :
    ∃ f1, f'.writeData g { handle with buffer := some b } data = some f1 ∧
      Opened Ok Other g (f1.ioEnd g { handle with buffer := some b } data.length false).1 l'
        (splice content q data) := by
  have hdiv := div_add_mod q g.blockSize
  have hb : b ∈ l' := mem_of_getElem? hr.block
  unfold writeData
  rw [bind_some, if_pos (by rw [hp.boff]; omega)]
  refine ⟨_, rfl, ?_⟩
  have hm := hr.mapped.write hb ((f'.state.disk b).copy handle.bpos.boff data)
  have hbytes := hr.bytes hg h hq hlen
  rw [← hp.boff] at hbytes
  have hsize : f'.size = f.state.map.size := hr.shared.trans h.shared
  have hlt := (List.getElem?_eq_some_iff.mp hr.block).1
  have hbound : q + data.length ≤ (q / g.blockSize + 1) * g.blockSize := by
    rw [Nat.add_mul, Nat.one_mul, Nat.mul_comm]; omega
  -- The size of the map after the transfer, and whether it is written.
  have hended : (if (⟨(q + data.length) / g.blockSize, (q + data.length) % g.blockSize,
        handle.bpos.block⟩ : BlockPos).PastEnd f'.state.map.size then
      (⟨f'.state.map.size.count, (q + data.length) % g.blockSize⟩ : BlockSize)
      else f'.state.map.size).Is g (splice content q data).length ∧
      (f'.size = f'.state.map.size ∨ (⟨(q + data.length) / g.blockSize,
        (q + data.length) % g.blockSize, handle.bpos.block⟩ : BlockPos).PastEnd
          f'.state.map.size) := by
    rw [length_splice hq]
    rcases hr.blocks with ⟨rfl, hsame⟩ | ⟨rfl, hend, hfull, hnew⟩
    · rw [hsame]
      refine ⟨h.size.ended ?_ ?_ handle.bpos.block, .inl hsize⟩
      · rw [h.mapped.count]; exact le_trans hbound (mul_le_mul_right _ hlt)
      · rw [← h.size.mod_eq]; exact hends
    · have hquot : q / g.blockSize = l.length := by rw [hend, hfull, Nat.mul_div_cancel _ hg.pos]
      rw [hquot] at hbound
      obtain ⟨hpast, his⟩ := BlockSize.Is.ended_new hg.pos (show l.length * g.blockSize <
        q + data.length by omega) hbound handle.bpos.block
      rw [hnew, if_pos hpast, max_eq_right (by omega)]
      exact ⟨his, .inr hpast⟩
  unfold ioEnd
  dsimp only
  rw [advanced_eq hg hp.bno hp.boff (by omega)]
  by_cases hpast : (⟨(q + data.length) / g.blockSize, (q + data.length) % g.blockSize,
      handle.bpos.block⟩ : BlockPos).PastEnd f'.state.map.size
  · rw [if_pos ⟨rfl, hpast⟩]
    rw [if_pos hpast] at hended
    exact ⟨hm.setOffset _, hbytes, hended.1, rfl⟩
  · rw [if_neg (fun hno => hpast hno.2)]
    rw [if_neg hpast] at hended
    exact ⟨hm, hbytes, hended.1, hended.2.resolve_right hpast⟩

theorem writeLoop_spec (hA : A.Correct Ok g.blocks) (hg : g.FitsFile) : ∀ (fuel : ℕ)
    (data : List UInt8) (written q : ℕ) (f : FileShared A) (handle : FileHandle) (l : List ℕ)
    (content : List UInt8), data.length ≤ fuel → Opened Ok Other g f l content →
    Placed g f l handle q → q ≤ content.length →
    (handle.buffer ≠ none → content.length % g.blockSize ≠ 0) →
    ¬ EndsInside g content.length (q + data.length) →
    ∃ r k f' handle' l', writeLoop g fuel data written f handle = some (r, f', handle') ∧
      Opened Ok Other g f' l' (splice content q (data.take k)) ∧
      (handle'.buffer ≠ none → (splice content q (data.take k)).length % g.blockSize ≠ 0) ∧
      (r = .ok (written + k) ∧ k = data.length ∨
        (r = .ok (written + k) ∧ 0 < written + k ∨ (∃ e, r = .error e) ∧ written = 0 ∧ k = 0) ∧
          k < data.length ∧ Refused Ok Other g l') := by
  intro fuel
  induction fuel with
  | zero =>
    intro data written q f handle l content hfuel h hp hq hheld hends
    obtain rfl : data = [] := length_eq_zero_iff.mp (by omega)
    unfold writeLoop
    refine ⟨_, 0, f, handle, l, rfl, ?_, ?_, .inl ⟨rfl, rfl⟩⟩
    · rw [take_zero, splice_nil]; exact h
    · rw [take_zero, splice_nil]; exact hheld
  | succ fuel ih =>
    intro data written q f handle l content hfuel h hp hq hheld hends
    unfold writeLoop
    by_cases hnil : data = []
    · rw [if_pos hnil, hnil]
      refine ⟨_, 0, f, handle, l, rfl, ?_, ?_, .inl ⟨rfl, rfl⟩⟩
      · rw [take_zero, splice_nil]; exact h
      · rw [take_zero, splice_nil]; exact hheld
    · have hpos := length_pos_iff.mpr hnil
      rw [if_neg hnil]
      rcases ioStart_write hA hg h hp hq data.length with
        ⟨e, f1, hstart, h1, hnone, hrefused⟩ | ⟨f1, l1, b, hstart, hr⟩
      · rw [hstart, bind_some]
        refine ⟨_, 0, f1, handle, l, rfl, ?_, fun hne => absurd hnone hne,
          .inr ⟨?_, hpos, hrefused⟩⟩
        · rw [take_zero, splice_nil]; exact h1
        · by_cases hw : written = 0
          · rw [if_pos hw]; exact .inr ⟨⟨e, rfl⟩, hw, rfl⟩
          · rw [if_neg hw]; exact .inl ⟨rfl, by omega⟩
      · rw [hstart, bind_some]
        dsimp only
        have hmod := mod_lt q hg.pos
        have hdiv := div_add_mod q g.blockSize
        generalize hc : min (g.blockSize - q % g.blockSize) data.length = c
        have hlen : (data.take c).length = c := by rw [length_take]; omega
        have hends1 : ¬ EndsInside g content.length (q + (data.take c).length) := by
          rw [hlen]
          by_cases hall : c = data.length
          · rw [hall]; exact hends
          · refine not_endsInside_of_dvd ⟨q / g.blockSize + 1, ?_⟩; rw [mul_succ]; omega
        obtain ⟨f2, hwrite, h2⟩ := hr.chunk hg h hp hq (hlen.trans hc.symm) (by omega) hends1
        rw [hwrite, bind_some]
        rw [hlen] at h2
        have hq2 : q + c ≤ (splice content q (data.take c)).length := by
          rw [length_splice hq, hlen]; omega
        have hends2 : ¬ EndsInside g (splice content q (data.take c)).length
            (q + c + (data.drop c).length) := by
          rw [length_splice hq, hlen, length_drop]
          rintro ⟨hzero, hlt, hlt'⟩
          apply hends
          rw [max_eq_left (by omega)] at hzero hlt hlt'
          exact ⟨hzero, by omega, by omega⟩
        obtain ⟨r, k, f', handle', l', hrun, h', hheld', hres⟩ := ih (data.drop c) (written + c)
          (q + c) _ _ l1 _ (by rw [length_drop]; omega) h2
          (hp.advance hg (by omega) _ l1) hq2 (fun hne => absurd rfl hne) hends2
        have hsplice : splice (splice content q (data.take c)) (q + c) ((data.drop c).take k) =
            splice content q (data.take (c + k)) := by
          rw [take_add, ← splice_splice hq, hlen]
        rw [hsplice] at h' hheld'
        rw [length_drop] at hres
        refine ⟨r, c + k, f', handle', l', hrun, h', hheld', ?_⟩
        rw [← Nat.add_assoc]
        rcases hres with ⟨hr', hk⟩ | ⟨hr', hk, hrefused⟩
        · exact .inl ⟨hr', by omega⟩
        · refine .inr ⟨?_, by omega, hrefused⟩
          rcases hr' with hr' | ⟨-, hzero, -⟩
          · exact .inl hr'
          · omega

/-! ## Positions -/

theorem seek_spec (hg : g.FitsFile) (h : Opened Ok Other g f l content)
    (hheld : handle.buffer ≠ none → content.length % g.blockSize ≠ 0) (hq : q ≤ content.length) :
    ∃ f' handle', f.seek g handle q = some (none, f', handle') ∧ Opened Ok Other g f' l content ∧
      Placed g f' l handle' q ∧ (handle'.buffer ≠ none → content.length % g.blockSize ≠ 0) := by
  unfold seek
  rw [h.fileSize, if_pos hq]
  cases hbuf : handle.buffer with
  | none => exact ⟨f, _, rfl, h, ⟨rfl, rfl, fun b hb => by cases hb⟩, fun hne => absurd rfl hne⟩
  | some bnum =>
    have hmod := hheld (by rw [hbuf]; exact some_ne_none bnum)
    have hin : q / g.blockSize < l.length := by
      rw [← h.mapped.count]; exact h.size.div_lt_of_mod hg.pos hq hmod
    have hb : l[(handle.bpos.getBpos g q).bno]? = some l[q / g.blockSize] := getElem?_eq_getElem hin
    obtain ⟨s', hs', hm, hdisk, hsize, hbno⟩ := h.mapped.find hg.toFits hb
    dsimp only
    rw [hs', map_some]
    refine ⟨_, _, rfl, h.of_find hm hdisk hsize, ?_, fun _ => hmod⟩
    by_cases hsame : bnum = l[q / g.blockSize]
    · rw [if_neg (fun hne => hne hsame)]
      refine ⟨rfl, rfl, fun b hb' => ?_⟩
      obtain rfl : bnum = b := some_inj.mp hb'
      rw [hsame]
      exact ⟨getElem?_eq_getElem hin, hbno⟩
    · rw [if_pos hsame]; exact ⟨rfl, rfl, fun b hb' => by cases hb'⟩

end FileShared

end Rtems.Rfs
