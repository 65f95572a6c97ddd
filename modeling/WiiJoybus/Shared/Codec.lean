import WiiJoybus.Shared.Command

/-!
What is sent is what is received.

The words of a message are fixed before any of them is sent. A word holds the
bits its predecessor had no room for, and the receiver always holds the low
bits of the value it is putting together; the rest of that value leads the next
word. This coupling is the invariant of the round trip.
-/

namespace WiiJoybus
open ByteMemory StructLayout Dialogue

theorem getLsbD_bit_sub_one {n j : Nat} (hn : n < 64) (hj : j < 64) :
    (bit n - 1).getLsbD j = decide (j < n) := by
  have h : bit n - 1 = BitVec.ofNat 64 (2 ^ n - 1) := by
    apply BitVec.eq_of_toNat_eq
    have hpos := Nat.two_pow_pos n
    have hlt : 2 ^ n < 2 ^ 64 := Nat.pow_lt_pow_right (by decide) hn
    simp [bit, Nat.not_le.mpr hn, BitVec.toNat_sub, Nat.shiftLeft_eq]
    omega
  rw [h, BitVec.getLsbD_ofNat, Nat.testBit_two_pow_sub_one]
  simp [hj]

theorem getLsbD_bits {m n j : Nat} (hm : m < 63) (hn : n < 63) (hj : j < 32) :
    (bits m n).getLsbD j = decide (min m n ≤ j ∧ j ≤ max m n) := by
  have hmax : max m n + 1 < 64 := by omega
  have hmin : min m n < 64 := by omega
  rw [bits, BitVec.getLsbD_setWidth, BitVec.getLsbD_xor,
    getLsbD_bit_sub_one hmax (by omega), getLsbD_bit_sub_one hmin (by omega)]
  by_cases h₁ : j < max m n + 1 <;> by_cases h₂ : j < min m n <;>
    simp [hj, h₁, h₂] <;> omega

theorem getLsbD_lowMask {carry j : Nat} (hc : carry ≤ 30) (hj : j < 32) :
    (bits 0 (chunkMax - carry)).getLsbD j = decide (j + carry ≤ 30) := by
  rw [getLsbD_bits (by decide) (by simp only [chunkMax]; omega) hj, decide_eq_decide]
  simp only [chunkMax]
  omega

theorem getLsbD_highMask {carry j : Nat} (hc : carry ≤ 30) (hj : j < 32) :
    (bits bitMax (bitMax - carry)).getLsbD j = decide (31 ≤ j + carry) := by
  rw [getLsbD_bits (by decide) (by simp only [bitMax]; omega) hj, decide_eq_decide]
  simp only [bitMax]
  omega

/-- The part of `cur` that fits under a word's carry. -/
def held (cur : Word) (carry : Nat) : Word := cur &&& bits 0 (chunkMax - carry)

/-- The part of `cur` that is left for the next word. -/
def spilled (cur : Word) (carry : Nat) : Word := (cur &&& bits bitMax (bitMax - carry)) >>> 1

theorem getLsbD_held {cur : Word} {carry j : Nat} (hc : carry ≤ 30) (hj : j < 32) :
    (held cur carry).getLsbD j = (cur.getLsbD j && decide (j + carry ≤ 30)) := by
  rw [held, BitVec.getLsbD_and, getLsbD_lowMask hc hj]

theorem getLsbD_spilled {cur : Word} {carry j : Nat} (hc : carry ≤ 30) (hj : j < 31) :
    (spilled cur carry).getLsbD j = (cur.getLsbD (j + 1) && decide (30 ≤ j + carry)) := by
  rw [spilled, BitVec.getLsbD_ushiftRight, BitVec.getLsbD_and, Nat.add_comm 1 j,
    getLsbD_highMask hc (by omega)]
  congr 1
  rw [decide_eq_decide]
  omega

theorem getLsbD_flag {j : Nat} (hj : j < 32) : flag.getLsbD j = decide (j = 31) := by
  interval_cases j <;> decide

/-- Bits a word's carry leaves to its own four bytes. -/
def Clear (remainder : Word) (carry : Nat) : Prop :=
  ∀ j, j + carry ≤ 30 → remainder.getLsbD j = false

theorem clear_zero (carry : Nat) : Clear 0 carry :=
  fun _ _ => BitVec.getLsbD_zero

theorem clear_spilled (cur : Word) {carry : Nat} (hc : carry < 30) :
    Clear (spilled cur carry) (carry + 1) := by
  intro j hj
  rw [getLsbD_spilled (by omega) (by omega), decide_eq_false (by omega), Bool.and_false]

/-- The receiver starts on a word by keeping the low bits it carries. -/
theorem word_and_held (cur : Word) {remainder : Word} {carry : Nat} (hc : carry ≤ 30)
    (hr : Clear remainder carry) :
    (flag ||| remainder ||| held cur carry) &&& bits 0 (chunkMax - carry) = held cur carry := by
  apply BitVec.eq_of_getLsbD_eq
  intro j hj
  rw [BitVec.getLsbD_and, getLsbD_lowMask hc hj, BitVec.getLsbD_or, BitVec.getLsbD_or,
    getLsbD_flag hj, getLsbD_held hc hj]
  by_cases hlow : j + carry ≤ 30
  · rw [hr j hlow, decide_eq_true hlow, decide_eq_false (show ¬ j = 31 by omega)]
    simp
  · simp [hlow]

theorem first_word_and_held (cur : Word) :
    (flag ||| 0 ||| held cur 0) &&& bits 0 chunkMax = held cur 0 :=
  word_and_held cur (by decide) (clear_zero 0)

/-- With the leading bits of the next word the four bytes are whole again. -/
theorem held_or_next (cur w : Word) {carry : Nat} (hc : carry ≤ 30)
    (hw : ∀ j, j ≤ 30 → 30 ≤ j + carry → w.getLsbD j = (spilled cur carry).getLsbD j) :
    held cur carry ||| ((w <<< 1) &&& bits bitMax (bitMax - carry)) = cur := by
  apply BitVec.eq_of_getLsbD_eq
  intro j hj
  rw [BitVec.getLsbD_or, getLsbD_held hc hj, BitVec.getLsbD_and, getLsbD_highMask hc hj,
    BitVec.getLsbD_shiftLeft]
  by_cases hlow : j + carry ≤ 30
  · rw [decide_eq_true hlow, decide_eq_false (show ¬ 31 ≤ j + carry by omega)]
    simp
  · rw [hw (j - 1) (by omega) (by omega), getLsbD_spilled hc (by omega),
      show j - 1 + 1 = j by omega, decide_eq_true (show 30 ≤ j - 1 + carry by omega),
      decide_eq_true (show 31 ≤ j + carry by omega), decide_eq_false hlow,
      decide_eq_true hj, decide_eq_false (show ¬ j < 1 by omega)]
    simp

def packetsFrom (me : Side) (b : Memory) (sz : Nat) :
    (left i : Nat) → (remainder : Word) → (carry : Nat) → List Word
  | 0, _, remainder, carry => if carry > 0 then [flag ||| remainder] else []
  | left + 1, i, remainder, carry =>
      let cur := load (endian me) 32 (out b sz i) 0
      (flag ||| remainder ||| held cur carry) ::
        if carry + 1 = bitMax then
          (flag ||| spilled cur carry) :: packetsFrom me b sz left (i + 4) 0 0
        else
          packetsFrom me b sz left (i + 4) (spilled cur carry) (carry + 1)

def packets (me : Side) (b : Memory) (sz : Nat) : List Word :=
  packetsFrom me b sz ((sz + 3) / 4) 0 0 0

theorem sendLoop_eq (me : Side) (b : Memory) (sz left i : Nat) (remainder : Word) (carry : Nat) :
    sendLoop me b sz left i remainder carry =
      Proc.sendAll (packetsFrom me b sz left i remainder carry) := by
  induction left generalizing i remainder carry with
  | zero =>
      simp only [sendLoop, packetsFrom]
      split <;> rfl
  | succ left ih =>
      simp only [sendLoop, packetsFrom, Proc.sendAll, held, spilled]
      split <;> simp only [Proc.sendAll, ih]

theorem sendRequest_eq (me : Side) (b : Memory) (sz : Nat) :
    sendRequest me b sz = Proc.sendAll (packets me b sz) :=
  sendLoop_eq me b sz _ 0 0 0

theorem packetsFrom_length (me : Side) (b : Memory) (sz left i : Nat) (remainder : Word)
    (carry : Nat) (hc : carry ≤ 30) :
    (packetsFrom me b sz left i remainder carry).length = left + (left + carry + 30) / 31 := by
  induction left generalizing i remainder carry with
  | zero =>
      simp only [packetsFrom]
      split <;> simp <;> omega
  | succ left ih =>
      rw [packetsFrom, List.length_cons]
      by_cases h : carry + 1 = bitMax
      · rw [if_pos h, List.length_cons, ih _ _ _ (by omega)]
        rw [bitMax] at h
        omega
      · rw [if_neg h, ih _ _ _ (by rw [bitMax] at h; omega)]
        omega

theorem packets_length (me : Side) (b : Memory) (sz : Nat) :
    (packets me b sz).length = (sz + 3) / 4 + ((sz + 3) / 4 + 30) / 31 :=
  packetsFrom_length me b sz _ 0 0 0 (by decide)

theorem packetsFrom_flag (me : Side) (b : Memory) (sz left i : Nat) (remainder : Word)
    (carry : Nat) :
    ∀ w ∈ packetsFrom me b sz left i remainder carry, w.getLsbD 31 = true := by
  have hflag : flag.getLsbD 31 = true := by decide
  induction left generalizing i remainder carry with
  | zero =>
      intro w hw
      simp only [packetsFrom] at hw
      split at hw
      · rw [List.mem_singleton.mp hw, BitVec.getLsbD_or, hflag, Bool.true_or]
      · cases hw
  | succ left ih =>
      intro w hw
      simp only [packetsFrom, List.mem_cons] at hw
      rcases hw with rfl | hw
      · rw [BitVec.getLsbD_or, BitVec.getLsbD_or, hflag, Bool.true_or, Bool.true_or]
      · split at hw
        · rcases List.mem_cons.mp hw with rfl | hw
          · rw [BitVec.getLsbD_or, hflag, Bool.true_or]
          · exact ih _ _ _ w hw
        · exact ih _ _ _ w hw

theorem packets_flag (me : Side) (b : Memory) (sz : Nat) :
    ∀ w ∈ packets me b sz, w.getLsbD 31 = true :=
  packetsFrom_flag me b sz _ 0 0 0

/-- A payload word is never the value the Wii polls while nothing is there. -/
theorem ne_zero_of_flag {w : Word} (h : w.getLsbD 31 = true) : joybus w ≠ 0 := by
  intro hz
  rw [(bswap_eq_zero_iff (by decide) w).mp hz] at h
  simp at h

theorem ne_code_of_flag {w : Word} (h : w.getLsbD 31 = true) (c : Cmd) : w ≠ c.code := by
  rintro rfl
  revert h
  cases c <;> decide

def arrived (m : Memory) (sz i : Nat) (b : Memory) : Memory := fun k =>
  if i ≤ k ∧ k < i + 4 ∧ k < sz then m k else b k

theorem unpack_load (me : Side) (m : Memory) (sz i : Nat) (b : Memory) :
    unpack me.other sz i (load (endian me) 32 (out m sz i) 0) b = arrived m sz i b := by
  funext k
  simp only [unpack, arrived]
  split
  · rename_i h
    have hk : k - i < 32 / 8 := by omega
    have hout : out m sz i (0 + (k - i)) = m k := by
      have hki : i + (0 + (k - i)) = k := by omega
      simp only [out, hki, if_pos h.2.2]
    have hb := byteOf_load (endian me) (w := 32) (by decide) (out m sz i) 0 (k - i) hk
    rw [hout] at hb
    cases me <;> exact hb
  · rfl

/-- One iteration of the receiving loop, when the next word leads with the bits
the receiver lacks. -/
theorem receiveLoop_feed_cons (me : Side) (m : Memory) (sz left i carry : Nat) (b : Memory)
    (w : Word) (ws : List Word) (hc : carry ≤ 30)
    (hw : ∀ j, j ≤ 30 → 30 ≤ j + carry → w.getLsbD j =
      (spilled (load (endian me) 32 (out m sz i) 0) carry).getLsbD j) :
    (receiveLoop me.other sz (left + 1) i (held (load (endian me) 32 (out m sz i) 0) carry)
        carry b).feed (joybus w :: ws) =
      (if carry + 1 = bitMax then
        if i + 4 < sz then
          doReceive >>= fun recv =>
            receiveLoop me.other sz left (i + 4) (recv &&& bits 0 chunkMax) 0 (arrived m sz i b)
        else
          receiveLoop me.other sz left (i + 4) (load (endian me) 32 (out m sz i) 0) 0
            (arrived m sz i b)
      else
        receiveLoop me.other sz left (i + 4) (w &&& bits 0 (chunkMax - (carry + 1))) (carry + 1)
          (arrived m sz i b)).feed ws := by
  have hwhole := held_or_next _ w hc hw
  have hunpack := unpack_load me m sz i b
  simp only [receiveLoop, doReceive, bind, Proc.bind, Proc.feed, joybus,
    bswap_bswap (w := 32) (by decide), hwhole, hunpack]

theorem next_leads (cur rest : Word) (carry : Nat)
    (hrest : ∀ j, 30 ≤ j + carry → j ≤ 30 → rest.getLsbD j = false) :
    ∀ j, j ≤ 30 → 30 ≤ j + carry →
      (flag ||| spilled cur carry ||| rest).getLsbD j = (spilled cur carry).getLsbD j := by
  intro j hj hjc
  rw [BitVec.getLsbD_or, BitVec.getLsbD_or, getLsbD_flag (by omega), hrest j hjc hj,
    decide_eq_false (show ¬ j = 31 by omega)]
  simp

/-- The words a receiver has still to read once it holds the low bits of the
sender's current four bytes. -/
theorem receiveLoop_feed (me : Side) (m : Memory) (sz left i : Nat) (remainder : Word)
    (carry : Nat) (b : Memory) (hc : carry ≤ 30) (hleft : left + 1 = (sz + 3 - i) / 4) :
    (receiveLoop me.other sz (left + 1) i (held (load (endian me) 32 (out m sz i) 0) carry)
        carry b).feed ((packetsFrom me m sz (left + 1) i remainder carry).tail.map joybus) =
      some (.ret fun k => if i ≤ k ∧ k < sz then m k else b k) := by
  induction left generalizing i remainder carry b with
  | zero =>
      have hlead := next_leads (load (endian me) 32 (out m sz i) 0) 0#32 carry (by simp)
      rw [BitVec.or_zero] at hlead
      have htail : (packetsFrom me m sz 1 i remainder carry).tail =
          [flag ||| spilled (load (endian me) 32 (out m sz i) 0) carry] := by
        simp only [packetsFrom, List.tail_cons]
        split <;> simp
      have hbytes : arrived m sz i b = fun k => if i ≤ k ∧ k < sz then m k else b k := by
        funext k
        have hk : (i ≤ k ∧ k < i + 4 ∧ k < sz) ↔ (i ≤ k ∧ k < sz) := by omega
        simp only [arrived, hk]
      rw [htail, List.map_cons, List.map_nil,
        receiveLoop_feed_cons me m sz 0 i carry b _ _ hc hlead,
        if_neg (show ¬ i + 4 < sz by omega), hbytes]
      split <;> rfl
  | succ left ih =>
      have hlt : i + 4 < sz := by omega
      have hnext : left + 1 = (sz + 3 - (i + 4)) / 4 := by omega
      have hbytes : (fun k => if i + 4 ≤ k ∧ k < sz then m k else arrived m sz i b k) =
          fun k => if i ≤ k ∧ k < sz then m k else b k := by
        funext k
        simp only [arrived]
        split_ifs <;> first | rfl | omega
      by_cases hwrap : carry + 1 = bitMax
      · -- the carry is full: one word for the last bits, a fresh one for the next bytes
        have hlead := next_leads (load (endian me) 32 (out m sz i) 0) 0#32 carry (by simp)
        rw [BitVec.or_zero] at hlead
        have htail : (packetsFrom me m sz (left + 1 + 1) i remainder carry).tail =
            (flag ||| spilled (load (endian me) 32 (out m sz i) 0) carry) ::
              (flag ||| 0 ||| held (load (endian me) 32 (out m sz (i + 4)) 0) 0) ::
                (packetsFrom me m sz (left + 1) (i + 4) 0 0).tail := by
          rw [packetsFrom, List.tail_cons, if_pos hwrap]
          rfl
        rw [htail, List.map_cons, receiveLoop_feed_cons me m sz (left + 1) i carry b _ _ hc hlead,
          if_pos hwrap, if_pos hlt, List.map_cons]
        simp only [doReceive, bind, Proc.bind, Proc.feed, joybus,
          bswap_bswap (w := 32) (by decide), first_word_and_held]
        rw [← hbytes]
        exact ih (i + 4) 0 0 (arrived m sz i b) (by decide) hnext
      · have hc' : carry < 30 := by
          rw [bitMax] at hwrap
          omega
        have hlead := next_leads (load (endian me) 32 (out m sz i) 0)
          (held (load (endian me) 32 (out m sz (i + 4)) 0) (carry + 1)) carry (by
            intro j hj hj'
            rw [getLsbD_held (by omega) (by omega), decide_eq_false (by omega), Bool.and_false])
        have htail : (packetsFrom me m sz (left + 1 + 1) i remainder carry).tail =
            (flag ||| spilled (load (endian me) 32 (out m sz i) 0) carry |||
                held (load (endian me) 32 (out m sz (i + 4)) 0) (carry + 1)) ::
              (packetsFrom me m sz (left + 1) (i + 4)
                (spilled (load (endian me) 32 (out m sz i) 0) carry) (carry + 1)).tail := by
          rw [packetsFrom, List.tail_cons, if_neg hwrap]
          rfl
        rw [htail, List.map_cons, receiveLoop_feed_cons me m sz (left + 1) i carry b _ _ hc hlead,
          if_neg hwrap, word_and_held _ (by omega) (clear_spilled _ hc'), ← hbytes]
        exact ih (i + 4) _ (carry + 1) (arrived m sz i b) (by omega) hnext

theorem receiveResponse_feed (me : Side) (m : Memory) (sz : Nat) (b : Memory) (hsz : 1 ≤ sz) :
    (receiveResponse me.other sz b).feed ((packets me m sz).map joybus) =
      some (.ret fun k => if k < sz then m k else b k) := by
  obtain ⟨left, hleft⟩ : ∃ left, (sz + 3) / 4 = left + 1 := ⟨(sz + 3) / 4 - 1, by omega⟩
  have hloop := receiveLoop_feed me m sz left 0 0 0 b (by decide) (by omega)
  have hpackets : packets me m sz =
      (flag ||| 0 ||| held (load (endian me) 32 (out m sz 0) 0) 0) ::
        (packetsFrom me m sz (left + 1) 0 0 0).tail := by
    rw [packets, hleft]
    rfl
  rw [hpackets, receiveResponse, hleft, List.map_cons]
  simp only [doReceive, bind, Proc.bind, Proc.feed, joybus, bswap_bswap (w := 32) (by decide),
    first_word_and_held, hloop]
  simp

/-- The words of a struct whose memory held `uninit` before its fields were assigned. -/
def structWords {α : Type} [CStruct α] (me : Side) (uninit : Memory) (a : α) : List Word :=
  packets me (encode (endian me) uninit a) (sizeof α)

theorem sendStruct_eq {α : Type} [CStruct α] (me : Side) (uninit : Memory) (a : α) :
    sendStruct me uninit a = Proc.sendAll (structWords me uninit a) :=
  sendRequest_eq me _ _

/-- Every integer field of a struct arrives swapped, every other byte as it is. -/
theorem receiveStruct_feed {α : Type} [CStruct α] (me : Side) (uninit buf : Memory) (a : α)
    (hsz : 1 ≤ sizeof α) :
    (receiveStruct me.other buf : Proc Word α).feed ((structWords me uninit a).map joybus) =
      some (.ret (swapped a)) := by
  have hm := receiveResponse_feed me (encode (endian me) uninit a) (sizeof α) buf hsz
  rw [receiveStruct, structWords, ← List.append_nil (List.map joybus _), Proc.feed_bind hm]
  simp only [Proc.feed]
  rw [endian_other, decode_congr _ _ (encode (endian me) uninit a) fun i hi => if_pos hi,
    decode_encode_other]

def contents (m : Memory) (sz : Nat) : List Byte := (List.range sz).map m

theorem contents_congr {m m' : Memory} {sz : Nat} (h : ∀ k, k < sz → m k = m' k) :
    contents m sz = contents m' sz :=
  List.map_congr_left fun k hk => h k (List.mem_range.mp hk)

def sendMessages (me : Side) : List (Memory × Nat) → Proc Word Unit
  | [] => .ret ()
  | (b, sz) :: ms => sendRequest me b sz >>= fun _ => sendMessages me ms

def receiveMessages (me : Side) : List (Nat × Memory) → Proc Word (List (List Byte))
  | [] => .ret []
  | (sz, b) :: bs =>
      receiveResponse me sz b >>= fun m =>
        receiveMessages me bs >>= fun ms => .ret (contents m sz :: ms)

def wordsOf (me : Side) (ms : List (Memory × Nat)) : List Word :=
  ms.flatMap fun m => packets me m.1 m.2

theorem sendMessages_eq (me : Side) (ms : List (Memory × Nat)) :
    sendMessages me ms = Proc.sendAll (wordsOf me ms) := by
  induction ms with
  | nil => rfl
  | cons m ms ih =>
      have hwords : wordsOf me (m :: ms) = packets me m.1 m.2 ++ wordsOf me ms :=
        List.flatMap_cons
      rw [sendMessages, sendRequest_eq, ih, hwords, Proc.sendAll_append]

theorem receiveMessages_feed (me : Side) (ms : List (Memory × Nat)) (bs : List (Nat × Memory))
    (hsz : ∀ m ∈ ms, 1 ≤ m.2) (hbs : bs.map Prod.fst = ms.map Prod.snd) :
    (receiveMessages me.other bs).feed ((wordsOf me ms).map joybus) =
      some (.ret (ms.map fun m => contents m.1 m.2)) := by
  induction ms generalizing bs with
  | nil =>
      obtain rfl := List.map_eq_nil_iff.mp hbs
      rfl
  | cons m ms ih =>
      obtain ⟨⟨sz, b⟩, bs, rfl, rfl, htail⟩ := List.map_eq_cons_iff.mp hbs
      have hrest := ih bs (fun m hm => hsz m (List.mem_cons_of_mem _ hm)) htail
      have hm := receiveResponse_feed me m.1 m.2 b (hsz m List.mem_cons_self)
      have hcontents : contents (fun k => if k < m.2 then m.1 k else b k) m.2 =
          contents m.1 m.2 := contents_congr fun k hk => if_pos hk
      have hwords : wordsOf me (m :: ms) = packets me m.1 m.2 ++ wordsOf me ms :=
        List.flatMap_cons
      rw [hwords, List.map_append, receiveMessages, Proc.feed_bind hm, hcontents,
        ← List.append_nil ((wordsOf me ms).map joybus), Proc.feed_bind hrest]
      rfl

theorem wordsOf_length (me : Side) (ms : List (Memory × Nat)) :
    (wordsOf me ms).length =
      (ms.map fun m => (m.2 + 3) / 4 + ((m.2 + 3) / 4 + 30) / 31).sum := by
  simp only [wordsOf, List.length_flatMap, packets_length]

theorem wordsOf_flag (me : Side) (ms : List (Memory × Nat)) :
    ∀ w ∈ wordsOf me ms, w.getLsbD 31 = true := by
  intro w hw
  obtain ⟨m, _, hw⟩ := List.mem_flatMap.mp hw
  exact packets_flag me m.1 m.2 w hw

/-- Whatever is sent back to back is received, message by message, between any
number of idle polls and before whatever words follow. -/
theorem messages_roundTrip (me : Side) (ms : List (Memory × Nat)) (hsz : ∀ m ∈ ms, 1 ≤ m.2) :
    ∃ words : List Word, sendMessages me ms = Proc.sendAll words ∧
      words.length = (ms.map fun m => (m.2 + 3) / 4 + ((m.2 + 3) / 4 + 30) / 31).sum ∧
      (∀ w ∈ words, w.getLsbD 31 = true ∧ w ≠ 0 ∧ joybus w ≠ 0 ∧ ∀ c : Cmd, w ≠ c.code) ∧
      ∀ (buffers : List (Nat × Memory)) (polls rest : List Word),
        buffers.map Prod.fst = ms.map Prod.snd →
        polls.filter (fun w => !idle me.other w) = words.map joybus ++ rest →
        ∃ polls', (receiveMessages me.other buffers).consume (idle me.other) polls =
            some (ms.map fun m => contents m.1 m.2, polls') ∧
          polls'.filter (fun w => !idle me.other w) = rest := by
  refine ⟨wordsOf me ms, sendMessages_eq me ms, wordsOf_length me ms, ?_, ?_⟩
  · intro w hw
    have hflag := wordsOf_flag me ms w hw
    refine ⟨hflag, ?_, ne_zero_of_flag hflag, ne_code_of_flag hflag⟩
    rintro rfl
    simp at hflag
  · intro buffers polls rest hbuffers hpolls
    exact Proc.consume_of_feed (idle me.other) _ _ _ polls rest
      (receiveMessages_feed me ms buffers hsz hbuffers) hpolls

/-- A read reply and a two-byte message after it, towards the Wii. -/
theorem messages_roundTrip_readReply :
    ∃ words : List Word,
      sendMessages gba [(fun k => BitVec.ofNat 8 k, 136), (fun _ => 255, 2)] =
        Proc.sendAll words ∧ words.length = 38 ∧
      ∃ polls, (receiveMessages wii [(136, fun _ => 0), (2, fun _ => 0)]).consume (idle wii)
          (0 :: words.map joybus ++ [0]) =
        some ([contents (fun k => BitVec.ofNat 8 k) 136, [255, 255]], polls) := by
  obtain ⟨words, hsend, hlen, hwords, hget⟩ := messages_roundTrip gba
    [(fun k => BitVec.ofNat 8 k, 136), (fun _ => 255, 2)] (by decide)
  refine ⟨words, hsend, hlen, ?_⟩
  have hpolls : (0 :: words.map joybus ++ [0]).filter (fun w => !idle wii w) =
      words.map joybus ++ [] := by
    have hall : (words.map joybus).filter (fun w => !idle wii w) = words.map joybus := by
      apply List.filter_eq_self.mpr
      intro w hw
      obtain ⟨v, hv, rfl⟩ := List.mem_map.mp hw
      simpa [idle] using (hwords v hv).2.2.1
    rw [List.cons_append, List.filter_cons_of_neg (by decide), List.filter_append, hall]
    rfl
  obtain ⟨polls, hgot, _⟩ := hget [(136, fun _ => 0), (2, fun _ => 0)] _ [] rfl hpolls
  exact ⟨polls, hgot⟩

end WiiJoybus
