import OsSuite.Crc
import OsSuite.OnesComplement
import OsSuite.Words

/-! The frame that the UDP demo puts together, its two checksums, and the CRC that goes behind it on
the hardware. A receiver as the protocols describe it takes the frame. -/

namespace OsSuite.UdpDemo

open OnesComplement (fold complement words)

def crcBit (crc : UInt32) : UInt32 :=
  let mask := -(crc &&& 1)
  (crc >>> 1) ^^^ (0xEDB88320 &&& mask)

def crcByte (crc : UInt32) (byte : UInt8) : UInt32 := Nat.iterate crcBit 8 (crc ^^^ byte.toUInt32)

def crc32 (message : List UInt8) : UInt32 := ~~~(message.foldl crcByte 0xFFFFFFFF)

/-- The loop of `checksum` over the pairs of bytes. -/
def sumWords (r : UInt32) : List UInt8 → UInt32
  | a :: b :: rest => sumWords (r + (a.toUInt32 <<< 8 ||| b.toUInt32)) rest
  | _ => r

theorem carries_toNat (r : UInt32) : (r >>> 16).toNat = r.toNat / 2 ^ 16 := by
  rw [UInt32.toNat_shiftRight]
  exact Nat.shiftRight_eq_div_pow _ _

theorem low_toNat (r : UInt32) : (r &&& (0xFFFF : UInt32)).toNat = r.toNat % 2 ^ 16 := by
  rw [UInt32.toNat_and]
  exact Nat.and_two_pow_sub_one_eq_mod _ 16

theorem around_toNat (r : UInt32) :
    ((r &&& (0xFFFF : UInt32)) + (r >>> 16)).toNat = r.toNat % 2 ^ 16 + r.toNat / 2 ^ 16 := by
  have hr := r.toNat_lt
  rw [UInt32.toNat_add, low_toNat, carries_toNat, Nat.mod_eq_of_lt (by omega)]

theorem carries_ne_zero {r : UInt32} : r >>> 16 ≠ 0 ↔ 2 ^ 16 ≤ r.toNat := by
  rw [ne_eq, ← UInt32.toNat_inj, carries_toNat, UInt32.toNat_zero]
  omega

/-- `while (r >> 16) r = (r & 0xffff) + (r >> 16);` -/
def addOverflows (r : UInt32) : UInt32 :=
  if r >>> 16 ≠ 0 then addOverflows ((r &&& (0xFFFF : UInt32)) + (r >>> 16)) else r
termination_by r.toNat
decreasing_by
  have hhigh := carries_ne_zero.mp ‹_›
  rw [around_toNat]
  omega

def checksum (r : UInt32) (ptr : List UInt8) (complete : Bool) : UInt16 :=
  let r := addOverflows (sumWords r ptr)
  if complete then
    let r := ~~~r &&& 0xFFFF
    if r = 0 then 0xFFFF else r.toUInt16
  else r.toUInt16

section Crc

abbrev poly : BitVec 32 := 0xEDB88320

theorem crcBit_toBitVec (crc : UInt32) : (crcBit crc).toBitVec = Crc.shift poly crc.toBitVec := by
  have hbit : (crc &&& 1).toBitVec = BitVec.setWidth 32 (BitVec.ofBool (crc.toBitVec.getLsbD 0)) := by
    rw [UInt32.toBitVec_and]
    exact BitVec.and_one_eq_setWidth_ofBool_getLsbD
  have hcrc : (crcBit crc).toBitVec = crc.toBitVec >>> 1 ^^^ (poly &&& -(crc &&& 1).toBitVec) := rfl
  rw [hcrc, hbit, Crc.shift]
  cases crc.toBitVec.getLsbD 0 with
  | true =>
    have hones : poly &&& -BitVec.setWidth 32 (BitVec.ofBool true) = poly := by decide
    rw [hones, if_pos rfl]
  | false =>
    have hnone : poly &&& -BitVec.setWidth 32 (BitVec.ofBool false) = 0#32 := by decide
    rw [hnone, BitVec.xor_zero, if_neg Bool.false_ne_true]

theorem iterate_toBitVec (n : Nat) (crc : UInt32) :
    (Nat.iterate crcBit n crc).toBitVec = Crc.shifts poly n crc.toBitVec := by
  induction n generalizing crc with
  | zero => rfl
  | succ n ih =>
    have hone : Crc.shift poly crc.toBitVec = Crc.shifts poly 1 crc.toBitVec := rfl
    rw [Function.iterate_succ_apply, ih, crcBit_toBitVec, hone, ← Crc.shifts_add]

theorem foldl_crcByte (message : List UInt8) (crc : UInt32) : (message.foldl crcByte crc).toBitVec =
    (message.map UInt8.toBitVec).foldl (Crc.absorb poly) crc.toBitVec := by
  induction message generalizing crc with
  | nil => rfl
  | cons b message ih =>
    have hbyte : (crcByte crc b).toBitVec = Crc.absorb poly crc.toBitVec b.toBitVec := iterate_toBitVec 8 _
    rw [List.foldl_cons, ih, hbyte]
    rfl

theorem poly_top : poly.getMsbD 0 = true := by decide

/-- The word `*((uint*)(txbuffer + txlen))`, its lowest byte first. -/
def store32 (w : UInt32) : List UInt8 := (List.range 4).map (Words.byte w)

theorem word_store32 (w : UInt32) : Crc.word 32 ((store32 w).map UInt8.toBitVec) = w.toBitVec := by
  have hbytes : (store32 w).map UInt8.toBitVec = [w.toBitVec.setWidth 8, (w.toBitVec >>> 8).setWidth 8,
      (w.toBitVec >>> 16).setWidth 8, (w.toBitVec >>> 24).setWidth 8] := rfl
  rw [hbytes]
  apply BitVec.eq_of_getLsbD_eq
  intro i hi
  simp only [Crc.word, BitVec.getLsbD_xor, BitVec.getLsbD_shiftLeft, BitVec.getLsbD_setWidth,
    BitVec.getLsbD_ushiftRight]
  interval_cases i <;> simp

/-- The register of a receiver that takes its own complement. -/
theorem crc32_store32 (message : List UInt8) : crc32 (message ++ store32 (crc32 message)) = 0x2144DF1C := by
  have hones (s : BitVec 32) : s ^^^ ~~~s = BitVec.allOnes 32 := by
    rw [BitVec.not_def, BitVec.xor_comm, BitVec.xor_assoc, BitVec.xor_self, BitVec.xor_zero]
  have hlast : Crc.shifts poly 32 (BitVec.allOnes 32) = 0xDEBB20E3 := by decide +kernel
  apply UInt32.toBitVec_inj.mp
  rw [crc32, UInt32.toBitVec_not, List.foldl_append, foldl_crcByte (store32 _), Crc.foldl_absorb poly (le_of_eq rfl),
    word_store32, crc32, UInt32.toBitVec_not, hones]
  exact (congrArg (~~~·) hlast).trans (by decide)

theorem crc32_ne {pre bytes bytes' post : List UInt8} (hlen : bytes'.length = bytes.length)
    (hshort : bytes.length ≤ 4) (hne : bytes' ≠ bytes) :
    crc32 (pre ++ bytes' ++ post) ≠ crc32 (pre ++ bytes ++ post) := by
  intro h
  have hreg := congrArg UInt32.toBitVec (UInt32.not_inj.mp h)
  simp only [foldl_crcByte, List.map_append] at hreg
  refine Crc.foldl_absorb_ne poly poly_top ?_ ?_ ?_ _ hreg
  · rw [List.length_map, List.length_map, hlen]
  · rw [List.length_map, hlen]
    omega
  · exact fun heq => hne (List.map_injective_iff.mpr (fun _ _ => UInt8.toBitVec_inj.mp) heq)

end Crc

/-- What the hardware's device is given: the frame, and a CRC of the frame from its ninth byte on. -/
def txbuffer (frame : List UInt8) : List UInt8 := frame ++ store32 (crc32 (frame.drop 8))

/-- The CRC over a buffer that holds its own CRC comes to a constant. -/
def intact (buffer : List UInt8) : Bool := crc32 (buffer.drop 8) == 0x2144DF1C

/-- A burst of errors over at most four bytes is found if it lies behind the first eight bytes, and
never if it lies within them. -/
theorem burst_found (frame pre bytes bytes' post : List UInt8) (hframe : 8 ≤ frame.length)
    (hsent : txbuffer frame = pre ++ bytes ++ post) (hlen : bytes'.length = bytes.length) :
    (bytes.length ≤ 4 → bytes' ≠ bytes → 8 ≤ pre.length → intact (pre ++ bytes' ++ post) = false) ∧
      (pre.length + bytes.length ≤ 8 → intact (pre ++ bytes' ++ post) = true) := by
  have htail : (txbuffer frame).drop 8 = frame.drop 8 ++ store32 (crc32 (frame.drop 8)) :=
    List.drop_append_of_le_length hframe
  have hresidue : crc32 ((txbuffer frame).drop 8) = 0x2144DF1C := by
    rw [htail, crc32_store32]
  rw [hsent] at hresidue
  refine ⟨fun hshort hne hpre => ?_, fun hpre => ?_⟩
  · have hcut (xs : List UInt8) : (pre ++ xs ++ post).drop 8 = pre.drop 8 ++ xs ++ post := by
      rw [List.append_assoc, List.drop_append_of_le_length hpre, List.append_assoc]
    rw [hcut] at hresidue
    rw [intact, hcut, beq_eq_false_iff_ne, ← hresidue]
    exact crc32_ne hlen hshort hne
  · have hcut {xs : List UInt8} (hxs : pre.length + xs.length ≤ 8) :
        (pre ++ xs ++ post).drop 8 = post.drop (8 - (pre.length + xs.length)) := by
      rw [List.drop_append, List.drop_of_length_le (by rwa [List.length_append]), List.nil_append,
        List.length_append]
    rw [hcut hpre] at hresidue
    rw [intact, hcut (by rwa [hlen]), hlen, hresidue]
    rfl

theorem burst_found_sample : intact ([1, 2, 3, 4, 5, 6, 7, 8, 9, 0] ++ store32 (crc32 [9, 10])) = false :=
  have hsent : txbuffer [1, 2, 3, 4, 5, 6, 7, 8, 9, 10] =
    [1, 2, 3, 4, 5, 6, 7, 8, 9] ++ [10] ++ store32 (crc32 [9, 10]) := rfl
  (burst_found _ _ [10] [0] _ (by decide) hsent rfl).1 (by decide) (by decide) (by decide)

section Frame

def bswap16 (v : UInt16) : UInt16 := v <<< 8 ||| v >>> 8

def bswap32 (v : UInt32) : UInt32 :=
  let mid : UInt32 := 0xFF00
  v <<< 24 ||| (v &&& mid) <<< 8 ||| (v >>> 8 &&& mid) ||| v >>> 24

def store16 (v : UInt16) : List UInt8 := [v.toUInt8, (v >>> 8).toUInt8]

structure EthernetHeader where
  destmac : Fin 6 → UInt8
  srcmac : Fin 6 → UInt8
  ethertype : UInt16

def EthernetHeader.bytes (eth : EthernetHeader) : List UInt8 :=
  List.ofFn eth.destmac ++ List.ofFn eth.srcmac ++ store16 eth.ethertype

structure IpHeader where
  version : UInt8
  diff_services : UInt8
  total_length : UInt16
  identification : UInt16
  fragment_offset : UInt16
  ttl : UInt8
  proto : UInt8
  checksum : UInt16
  src_ip : UInt32
  dst_ip : UInt32

def IpHeader.bytes (ip : IpHeader) : List UInt8 :=
  [ip.version, ip.diff_services] ++ store16 ip.total_length ++ store16 ip.identification ++
    store16 ip.fragment_offset ++ [ip.ttl, ip.proto] ++ store16 ip.checksum ++ store32 ip.src_ip ++ store32 ip.dst_ip

structure UdpHeader where
  src_port : UInt16
  dst_port : UInt16
  length : UInt16
  checksum : UInt16

def UdpHeader.bytes (udp : UdpHeader) : List UInt8 :=
  store16 udp.src_port ++ store16 udp.dst_port ++ store16 udp.length ++ store16 udp.checksum

structure ChecksumFields where
  src_ip : UInt32
  dst_ip : UInt32
  zero : UInt8
  proto : UInt8
  length : UInt16

def ChecksumFields.bytes (check : ChecksumFields) : List UInt8 :=
  store32 check.src_ip ++ store32 check.dst_ip ++ [check.zero, check.proto] ++ store16 check.length

structure EthernetFrame where
  eth : EthernetHeader
  ip : IpHeader
  udp : UdpHeader
  payload : List UInt8

def EthernetFrame.bytes (frame : EthernetFrame) : List UInt8 :=
  frame.eth.bytes ++ frame.ip.bytes ++ frame.udp.bytes ++ frame.payload

/-- The constants at the head of the program. -/
structure Endpoints where
  localMac : Fin 6 → UInt8
  destMac : Fin 6 → UInt8
  local_ip : UInt32
  local_udp_port : UInt32
  dest_ip : UInt32
  dest_udp_port : UInt32

/-- `main` up to the copy into the transmit buffer; `none` stands for `FATAL`. -/
def main (ends : Endpoints) (msg : List UInt8) : Option EthernetFrame :=
  let eth : EthernetHeader :=
    { srcmac := ends.localMac, destmac := ends.destMac, ethertype := bswap16 0x0800 }
  let ip : IpHeader :=
    { version := 0x45, diff_services := 0
      total_length := bswap16 (UInt16.ofNat (20 + 8 + msg.length))
      identification := bswap16 0, fragment_offset := bswap16 0x4000
      ttl := 64, proto := 0x11, checksum := 0
      src_ip := bswap32 ends.local_ip, dst_ip := bswap32 ends.dest_ip }
  let udp : UdpHeader :=
    { src_port := bswap16 ends.local_udp_port.toUInt16, dst_port := bswap16 ends.dest_udp_port.toUInt16
      length := bswap16 (UInt16.ofNat (8 + msg.length)), checksum := 0 }
  if msg.length % 2 = 1 then none
  else
    let ip := { ip with checksum := bswap16 (checksum 0 ip.bytes true) }
    let check : ChecksumFields :=
      { src_ip := ip.src_ip, dst_ip := ip.dst_ip, zero := 0, proto := ip.proto, length := udp.length }
    let r := checksum 0 check.bytes false
    let udp := { udp with checksum := bswap16 (checksum r.toUInt32 (udp.bytes ++ msg) true) }
    some { eth := eth, ip := ip, udp := udp, payload := msg }

end Frame

section Receiver

/-- Bytes as one number, the first of them the highest. -/
def ofBE (bytes : List UInt8) : Nat := bytes.foldl (fun n b => 256 * n + b.toNat) 0

def field (bytes : List UInt8) (start len : Nat) : List UInt8 := (bytes.drop start).take len

structure Datagram where
  dstMac : List UInt8
  srcMac : List UInt8
  srcIp : Nat
  dstIp : Nat
  srcPort : Nat
  dstPort : Nat
  payload : List UInt8

/-- What the UDP checksum is taken over: addresses, protocol and length, and the whole segment. -/
def covered (ip segment : List UInt8) : List UInt8 :=
  field ip 12 8 ++ [0, 0x11] ++ field segment 4 2 ++ segment

/-- IPv4 without options, not a fragment, carrying UDP with its checksum. -/
def accepted (ip segment : List UInt8) : Bool :=
  field ip 0 1 == [0x45] && OnesComplement.sum (words (field ip 0 20)) == 65535 &&
  ofBE (field ip 6 2) % 0x4000 == 0 && field ip 9 1 == [0x11] &&
  20 + segment.length == ofBE (field ip 2 2) && segment.length == ofBE (field segment 4 2) &&
  ofBE (field segment 6 2) != 0 && OnesComplement.sum (words (covered ip segment)) == 65535

/-- A receiver of Ethernet frames, as the protocols ask for it. Bytes behind the packet do not count. -/
def receive (bytes : List UInt8) : Option Datagram :=
  let ip := bytes.drop 14
  let segment := field ip 20 (ofBE (field ip 2 2) - 20)
  if field bytes 12 2 = [0x08, 0x00] ∧ accepted ip segment then
    some { dstMac := field bytes 0 6, srcMac := field bytes 6 6
           srcIp := ofBE (field ip 12 4), dstIp := ofBE (field ip 16 4)
           srcPort := ofBE (field segment 0 2), dstPort := ofBE (field segment 2 2)
           payload := segment.drop 8 }
  else none

end Receiver

theorem sumWords_toNat (r : UInt32) (ptr : List UInt8) (hroom : r.toNat + (words ptr).sum < 2 ^ 32) :
    (sumWords r ptr).toNat = r.toNat + (words ptr).sum := by
  fun_induction sumWords r ptr with
  | case1 r a b rest ih =>
    have hpair : (a.toUInt32 <<< 8 ||| b.toUInt32).toNat = 256 * a.toNat + b.toNat := by
      have hshift : (a.toUInt32 <<< 8).toNat = 2 ^ 8 * a.toNat := by
        have ha := a.toNat_lt
        have hbits : (8 : UInt32).toNat % 32 = 8 := rfl
        rw [UInt32.toNat_shiftLeft, UInt8.toNat_toUInt32, hbits, Nat.shiftLeft_eq]
        omega
      rw [UInt32.toNat_or, hshift, UInt8.toNat_toUInt32, ← Nat.two_pow_add_eq_or_of_lt b.toNat_lt]
    simp only [words, List.sum_cons] at hroom ⊢
    have hstep : (r + (a.toUInt32 <<< 8 ||| b.toUInt32)).toNat = r.toNat + (256 * a.toNat + b.toNat) := by
      rw [UInt32.toNat_add, hpair, Nat.mod_eq_of_lt (by omega)]
    rw [hstep] at ih
    rw [ih (by omega)]
    omega
  | case2 ptr r hshort =>
    have hnone : words ptr = [] := by
      unfold words
      split
      · exact absurd rfl (hshort _ _ _)
      · rfl
    rw [hnone, List.sum_nil, Nat.add_zero]

theorem addOverflows_toNat (r : UInt32) : (addOverflows r).toNat = fold r.toNat := by
  fun_induction addOverflows r with
  | case1 r hhigh ih =>
    have hnot := Nat.not_lt.mpr (carries_ne_zero.mp hhigh)
    rw [ih, around_toNat, fold.eq_def r.toNat, if_neg hnot]
  | case2 r hhigh =>
    have hlt := Nat.lt_of_not_le fun hle => hhigh (carries_ne_zero.mpr hle)
    rw [fold, if_pos hlt]

theorem checksum_toNat {r : UInt32} {ptr : List UInt8} (hroom : r.toNat + (words ptr).sum < 2 ^ 32) :
    (checksum r ptr false).toNat = fold (r.toNat + (words ptr).sum) ∧
      (checksum r ptr true).toNat = complement (fold (r.toNat + (words ptr).sum)) := by
  have hsum : (addOverflows (sumWords r ptr)).toNat = fold (r.toNat + (words ptr).sum) := by
    rw [addOverflows_toNat, sumWords_toNat r ptr hroom]
  have hlt := (OnesComplement.fold_spec (r.toNat + (words ptr).sum)).1
  simp only [checksum]
  generalize addOverflows (sumWords r ptr) = r' at hsum
  rw [← hsum] at hlt ⊢
  have hinv : (~~~r' &&& (0xFFFF : UInt32)).toNat = 65535 - r'.toNat := by
    rw [low_toNat, UInt32.toNat_not]
    have hmax : UInt32.size = 4294967296 := rfl
    omega
  refine ⟨?_, ?_⟩
  · rw [if_neg Bool.false_ne_true, UInt32.toNat_toUInt16, Nat.mod_eq_of_lt hlt]
  · rw [if_pos trivial, complement]
    split
    · rename_i hzero
      have hnone := congrArg UInt32.toNat hzero
      rw [hinv] at hnone
      have hfull : r'.toNat = 65535 := by
        have hz : (0 : UInt32).toNat = 0 := rfl
        omega
      rw [if_pos hfull]
      rfl
    · rename_i hne
      have hfull : r'.toNat ≠ 65535 := by
        intro hfull
        apply hne
        apply UInt32.toNat_inj.mp
        rw [hinv, hfull]
        rfl
      rw [if_neg hfull, UInt32.toNat_toUInt16, hinv]
      omega

theorem fold_fold_add (a b : Nat) : fold (fold a + b) = fold (a + b) := by
  obtain ⟨hlt, hmod, hzero⟩ := OnesComplement.fold_spec a
  obtain ⟨hlt', hmod', hzero'⟩ := OnesComplement.fold_spec (fold a + b)
  obtain ⟨hlt'', hmod'', hzero''⟩ := OnesComplement.fold_spec (a + b)
  refine OnesComplement.eq_of_mod hlt' hlt'' ?_ ?_
  · omega
  · rw [hzero', hzero'']
    omega

theorem checksum_ne_zero (r : UInt32) (ptr : List UInt8) : (checksum r ptr true).toNat ≠ 0 := by
  simp only [checksum, if_pos]
  split
  · decide
  · rename_i hne
    intro hzero
    apply hne
    apply UInt32.toNat_inj.mp
    rw [UInt32.toNat_toUInt16, low_toNat] at hzero
    rw [low_toNat, UInt32.toNat_zero]
    omega

section Order

def be16 (v : UInt16) : List UInt8 := [(v >>> 8).toUInt8, v.toUInt8]

def be32 (v : UInt32) : List UInt8 := [(v >>> 24).toUInt8, (v >>> 16).toUInt8, (v >>> 8).toUInt8, v.toUInt8]

theorem store16_bswap16 (v : UInt16) : store16 (bswap16 v) = be16 v := by
  have hlow : (bswap16 v).toUInt8 = (v >>> 8).toUInt8 := by
    apply UInt8.toBitVec_inj.mp
    change ((v.toBitVec <<< 8 ||| v.toBitVec >>> 8).setWidth 8) = (v.toBitVec >>> 8).setWidth 8
    apply BitVec.eq_of_getLsbD_eq
    intro i hi
    simp [hi]
  have hhigh : (bswap16 v >>> 8).toUInt8 = v.toUInt8 := by
    apply UInt8.toBitVec_inj.mp
    change (((v.toBitVec <<< 8 ||| v.toBitVec >>> 8) >>> 8).setWidth 8) = v.toBitVec.setWidth 8
    apply BitVec.eq_of_getLsbD_eq
    intro i hi
    interval_cases i <;> simp
  rw [store16, hlow, hhigh, be16]

theorem bswap32_bit (v : UInt32) {j : Nat} (hj : j < 32) :
    (bswap32 v).toBitVec.getLsbD j = v.toBitVec.getLsbD (8 * (3 - j / 8) + j % 8) := by
  have hswap : (bswap32 v).toBitVec = v.toBitVec <<< 24 ||| (v.toBitVec &&& 0xFF00#32) <<< 8 |||
      (v.toBitVec >>> 8 &&& 0xFF00#32) ||| v.toBitVec >>> 24 := rfl
  rw [hswap]
  simp only [BitVec.getLsbD_or, BitVec.getLsbD_and, BitVec.getLsbD_shiftLeft, BitVec.getLsbD_ushiftRight]
  interval_cases j <;> simp

theorem byte_bit (w : UInt32) {k i : Nat} (hk : k < 4) (hi : i < 8) :
    (Words.byte w k).toBitVec.getLsbD i = w.toBitVec.getLsbD (8 * k + i) := by
  have hshift : (Words.byte w k).toBitVec = (w.toBitVec >>> (8 * k)).setWidth 8 := by
    interval_cases k <;> rfl
  rw [hshift, BitVec.getLsbD_setWidth, BitVec.getLsbD_ushiftRight, decide_eq_true hi, Bool.true_and]

theorem bswap32_byte (v : UInt32) {k : Nat} (hk : k < 4) :
    Words.byte (bswap32 v) k = Words.byte v (3 - k) := by
  apply UInt8.toBitVec_inj.mp
  apply BitVec.eq_of_getLsbD_eq
  intro i hi
  have hdiv : (8 * k + i) / 8 = k := by omega
  have hmod : (8 * k + i) % 8 = i := by omega
  rw [byte_bit _ hk hi, byte_bit v (by omega) hi, bswap32_bit v (by omega), hdiv, hmod]

theorem store32_bswap32 (v : UInt32) : store32 (bswap32 v) = be32 v := by
  have hbytes : store32 (bswap32 v) = [Words.byte (bswap32 v) 0, Words.byte (bswap32 v) 1,
      Words.byte (bswap32 v) 2, Words.byte (bswap32 v) 3] := rfl
  rw [hbytes, bswap32_byte v (by decide), bswap32_byte v (by decide), bswap32_byte v (by decide),
    bswap32_byte v (by decide)]
  simp [be32, Words.byte]

theorem ofBE_be16 (v : UInt16) : ofBE (be16 v) = v.toNat := by
  have hhigh : (v >>> 8).toUInt8.toNat = v.toNat / 2 ^ 8 := by
    have hv := v.toNat_lt
    have hbits : (8 : UInt16).toNat % 16 = 8 := rfl
    rw [UInt16.toNat_toUInt8, UInt16.toNat_shiftRight, hbits, Nat.shiftRight_eq_div_pow]
    omega
  simp only [ofBE, be16, List.foldl_cons, List.foldl_nil, hhigh, UInt16.toNat_toUInt8]
  omega

theorem ofBE_be32 (v : UInt32) : ofBE (be32 v) = v.toNat := by
  have hv := v.toNat_lt
  have hbyte (k : UInt32) : (v >>> k).toUInt8.toNat = v.toNat / 2 ^ (k.toNat % 32) % 2 ^ 8 := by
    rw [UInt32.toNat_toUInt8, UInt32.toNat_shiftRight, Nat.shiftRight_eq_div_pow]
  have h8 : (8 : UInt32).toNat % 32 = 8 := rfl
  have h16 : (16 : UInt32).toNat % 32 = 16 := rfl
  have h24 : (24 : UInt32).toNat % 32 = 24 := rfl
  simp only [ofBE, be32, List.foldl_cons, List.foldl_nil, hbyte, UInt32.toNat_toUInt8, h8, h16, h24]
  omega

theorem words_be16 (v : UInt16) (rest : List UInt8) : words (be16 v ++ rest) = v.toNat :: words rest := by
  have hval : 256 * (v >>> 8).toUInt8.toNat + v.toUInt8.toNat = v.toNat := by
    simpa [ofBE, be16] using ofBE_be16 v
  simp only [be16, List.cons_append, List.nil_append, words, hval]

end Order

section Checksums

variable {pre post : List UInt8} {r : UInt32}

theorem words_split (hpre : pre.length % 2 = 0) (c : UInt16) :
    words (pre ++ be16 c ++ post) = words pre ++ c.toNat :: words post := by
  rw [List.append_assoc, OnesComplement.words_append hpre, words_be16]

/-- With the checksum in its place the words sum up to ones. -/
theorem sum_checksum {before : List UInt8} (hbefore : before.length % 2 = 0) (hpre : pre.length % 2 = 0)
    (hr : r.toNat = fold (words before).sum) (hroom : (pre ++ be16 0 ++ post).length ≤ 2 * 2 ^ 16) :
    OnesComplement.sum (words (before ++ (pre ++ be16 (checksum r (pre ++ be16 0 ++ post) true) ++ post))) = 65535 := by
  have hfold := (OnesComplement.fold_spec (words before).sum).1
  have hle := OnesComplement.words_sum_le (pre ++ be16 0 ++ post)
  have hlen := OnesComplement.words_length_le (pre ++ be16 0 ++ post)
  have hvalue := (@checksum_toNat r (pre ++ be16 0 ++ post) (by omega)).2
  rw [words_split hpre, List.sum_append, List.sum_cons, hr, fold_fold_add] at hvalue
  have hsplit := @words_split pre post hpre (checksum r (pre ++ be16 0 ++ post) true)
  refine OnesComplement.sum_complete (OnesComplement.words_lt _) ?_
    (r := (words before).sum + ((words pre).sum + ((0 : UInt16).toNat + (words post).sum)))
  rw [OnesComplement.words_append hbefore, hsplit, List.sum_append, List.sum_append, List.sum_cons, hvalue]
  have hzero : (0 : UInt16).toNat = 0 := rfl
  rw [hzero]
  omega

end Checksums

/-- What the sender's program is about to say. -/
def Endpoints.datagram (ends : Endpoints) (msg : List UInt8) : Datagram :=
  { dstMac := List.ofFn ends.destMac, srcMac := List.ofFn ends.localMac
    srcIp := ends.local_ip.toNat, dstIp := ends.dest_ip.toNat
    srcPort := ends.local_udp_port.toNat % 2 ^ 16, dstPort := ends.dest_udp_port.toNat % 2 ^ 16, payload := msg }

section Layout

variable (macs msg behind : List UInt8) (total len c c' sport dport : UInt16) (src dst : UInt32)

/-- The bytes of the two headers as they go out. -/
def ipOut : List UInt8 :=
  [0x45, 0] ++ be16 total ++ be16 0 ++ be16 0x4000 ++ [64, 0x11] ++ be16 c ++ be32 src ++ be32 dst

def udpOut : List UInt8 := be16 sport ++ be16 dport ++ be16 len ++ be16 c'

def pseudo : List UInt8 := be32 src ++ be32 dst ++ [0, 0x11] ++ be16 len

theorem ipOut_sum : OnesComplement.sum (words
    (ipOut total (checksum 0 (ipOut total 0 src dst) true) src dst)) = 65535 := by
  have hsplit (c : UInt16) : ipOut total c src dst = [0x45, 0] ++ be16 total ++ be16 0 ++ be16 0x4000 ++ [64, 0x11] ++
      be16 c ++ (be32 src ++ be32 dst) := List.append_assoc _ _ _
  have hlen : ([0x45, 0] ++ be16 total ++ be16 0 ++ be16 0x4000 ++ [64, 0x11]).length = 10 := rfl
  have hall : (ipOut total 0 src dst).length = 20 := rfl
  have hzero : (0 : UInt32).toNat = fold (words []).sum := by
    have hnone : (words []).sum = 0 := rfl
    rw [hnone, fold, if_pos (by decide), UInt32.toNat_zero]
  rw [hsplit] at hall
  rw [hsplit, hsplit]
  have hpre : ([0x45, 0] ++ be16 total ++ be16 0 ++ be16 0x4000 ++ [64, 0x11]).length % 2 = 0 := by
    rw [hlen]
  have hsum := @sum_checksum _ (be32 src ++ be32 dst) 0 [] rfl hpre hzero (hall ▸ by decide)
  rwa [List.nil_append] at hsum

theorem udpOut_sum (hroom : msg.length ≤ 2 ^ 16) : OnesComplement.sum (words (pseudo len src dst ++
    (udpOut len (checksum (checksum 0 (pseudo len src dst) false).toUInt32 (udpOut len 0 sport dport ++ msg) true)
      sport dport ++ msg))) = 65535 := by
  have hpseudo : (pseudo len src dst).length = 12 := rfl
  have hpre : (be16 sport ++ be16 dport ++ be16 len).length = 6 := rfl
  have hlen : (be16 sport ++ be16 dport ++ be16 len ++ be16 0 ++ msg).length = 8 + msg.length := by
    rw [List.length_append]
    rfl
  have hle := OnesComplement.words_sum_le (pseudo len src dst)
  have hwords : (words (pseudo len src dst)).length = 6 := rfl
  refine sum_checksum ?_ ?_ ?_ ?_
  · rw [hpseudo]
  · rw [hpre]
  · have hsum := (@checksum_toNat 0 (pseudo len src dst) (by rw [UInt32.toNat_zero]; omega)).1
    rw [UInt16.toNat_toUInt32, hsum, UInt32.toNat_zero, Nat.zero_add]
  · rw [hlen]
    omega

theorem segment_eq (htotal : total.toNat = 28 + msg.length) :
    field (ipOut total c src dst ++ (udpOut len c' sport dport ++ msg ++ behind)) 20 (ofBE (be16 total) - 20) =
      udpOut len c' sport dport ++ msg := by
  have hrest : (ipOut total c src dst ++ (udpOut len c' sport dport ++ msg ++ behind)).drop 20 =
      udpOut len c' sport dport ++ msg ++ behind := rfl
  have hlen : (udpOut len c' sport dport ++ msg).length = total.toNat - 20 := by
    rw [List.length_append, htotal]
    have hudp : (udpOut len c' sport dport).length = 8 := rfl
    omega
  rw [field, hrest, ofBE_be16, ← hlen, List.take_left]

theorem accepted_out (rest : List UInt8) (htotal : total.toNat = 28 + msg.length) (hlen : len.toNat = 8 + msg.length)
    (hpresent : c'.toNat ≠ 0) (hheader : OnesComplement.sum (words (ipOut total c src dst)) = 65535)
    (hsum : OnesComplement.sum (words (pseudo len src dst ++ (udpOut len c' sport dport ++ msg))) = 65535) :
    accepted (ipOut total c src dst ++ rest) (udpOut len c' sport dport ++ msg) = true := by
  have hudp : (udpOut len c' sport dport ++ msg).length = 8 + msg.length := by
    rw [List.length_append]
    rfl
  have hversion : field (ipOut total c src dst ++ rest) 0 1 = [0x45] := rfl
  have hhead : field (ipOut total c src dst ++ rest) 0 20 = ipOut total c src dst := rfl
  have hlength : field (ipOut total c src dst ++ rest) 2 2 = be16 total := rfl
  have hproto : field (ipOut total c src dst ++ rest) 9 1 = [0x11] := rfl
  have hfragment : field (ipOut total c src dst ++ rest) 6 2 = be16 0x4000 := rfl
  have hwhole : ofBE (field (ipOut total c src dst ++ rest) 6 2) % 0x4000 = 0 := by
    rw [hfragment, ofBE_be16]
    rfl
  have hcovered : covered (ipOut total c src dst ++ rest) (udpOut len c' sport dport ++ msg) =
      pseudo len src dst ++ (udpOut len c' sport dport ++ msg) := rfl
  have hseglen : field (udpOut len c' sport dport ++ msg) 4 2 = be16 len := rfl
  have hsegsum : field (udpOut len c' sport dport ++ msg) 6 2 = be16 c' := rfl
  have htot : 20 + (8 + msg.length) = 28 + msg.length := by omega
  simp [accepted, hversion, hhead, hheader, hwhole, hproto, hlength, ofBE_be16, hseglen, hsegsum, hcovered, hsum,
    hudp, htotal, hlen, hpresent, htot]

theorem receive_ether (ip : List UInt8) (hmacs : macs.length = 12)
    (haccepted : accepted ip (field ip 20 (ofBE (field ip 2 2) - 20)) = true) :
    receive (macs ++ (be16 0x0800 ++ ip)) =
      some { dstMac := macs.take 6, srcMac := macs.drop 6
             srcIp := ofBE (field ip 12 4), dstIp := ofBE (field ip 16 4)
             srcPort := ofBE (field (field ip 20 (ofBE (field ip 2 2) - 20)) 0 2)
             dstPort := ofBE (field (field ip 20 (ofBE (field ip 2 2) - 20)) 2 2)
             payload := (field ip 20 (ofBE (field ip 2 2) - 20)).drop 8 } := by
  have hdrop : (macs ++ (be16 0x0800 ++ ip)).drop 14 = ip := by
    rw [List.drop_append, hmacs, List.drop_of_length_le (by omega)]
    rfl
  have hether : field (macs ++ (be16 0x0800 ++ ip)) 12 2 = [0x08, 0x00] := by
    rw [field, ← hmacs, List.drop_left]
    rfl
  have hdst : field (macs ++ (be16 0x0800 ++ ip)) 0 6 = macs.take 6 := by
    rw [field, List.drop_zero, List.take_append_of_le_length (by omega)]
  have hsrc : field (macs ++ (be16 0x0800 ++ ip)) 6 6 = macs.drop 6 := by
    rw [field, List.drop_append_of_le_length (by omega)]
    exact List.take_left' (by rw [List.length_drop, hmacs])
  simp only [receive, hdrop, hether, haccepted, hdst, hsrc, and_self, if_pos]

theorem receive_out (hmacs : macs.length = 12) (htotal : total.toNat = 28 + msg.length)
    (hlen : len.toNat = 8 + msg.length) (hpresent : c'.toNat ≠ 0)
    (hheader : OnesComplement.sum (words (ipOut total c src dst)) = 65535)
    (hsum : OnesComplement.sum (words (pseudo len src dst ++ (udpOut len c' sport dport ++ msg))) = 65535) :
    receive (macs ++ be16 0x0800 ++ ipOut total c src dst ++ udpOut len c' sport dport ++ msg ++ behind) =
      some { dstMac := macs.take 6, srcMac := macs.drop 6, srcIp := src.toNat, dstIp := dst.toNat
             srcPort := sport.toNat, dstPort := dport.toNat, payload := msg } := by
  have hframe : macs ++ be16 0x0800 ++ ipOut total c src dst ++ udpOut len c' sport dport ++ msg ++ behind =
      macs ++ (be16 0x0800 ++ (ipOut total c src dst ++ (udpOut len c' sport dport ++ msg ++ behind))) := by
    simp only [List.append_assoc]
  have hsegment := segment_eq msg behind total len c c' sport dport src dst htotal
  generalize udpOut len c' sport dport ++ msg ++ behind = rest at hframe hsegment
  have hlength : field (ipOut total c src dst ++ rest) 2 2 = be16 total := rfl
  have haccepted := accepted_out msg total len c c' sport dport src dst rest htotal hlen hpresent hheader hsum
  rw [← hsegment, ← hlength] at haccepted
  have hfrom : field (ipOut total c src dst ++ rest) 12 4 = be32 src := rfl
  have hto : field (ipOut total c src dst ++ rest) 16 4 = be32 dst := rfl
  have hsport : field (udpOut len c' sport dport ++ msg) 0 2 = be16 sport := rfl
  have hdport : field (udpOut len c' sport dport ++ msg) 2 2 = be16 dport := rfl
  have hpayload : (udpOut len c' sport dport ++ msg).drop 8 = msg := rfl
  rw [hframe, receive_ether macs _ hmacs haccepted, hlength, hsegment, hfrom, hto, hsport, hdport, hpayload, ofBE_be32,
    ofBE_be32, ofBE_be16, ofBE_be16]

end Layout

/-- A receiver takes every frame that the program can build, and reads from it what was to be sent,
whatever follows the frame. Messages of an odd length are refused. -/
theorem frame_received (ends : Endpoints) (msg : List UInt8) (hfits : 28 + msg.length < 2 ^ 16) :
    (msg.length % 2 = 1 → main ends msg = none) ∧
      (msg.length % 2 = 0 → ∃ frame, main ends msg = some frame ∧
        ∀ behind, receive (frame.bytes ++ behind) = some (ends.datagram msg)) := by
  refine ⟨fun hodd => if_pos hodd, fun heven => ⟨_, if_neg (by omega), fun behind => ?_⟩⟩
  have hlen : (UInt16.ofNat (8 + msg.length)).toNat = 8 + msg.length := UInt16.toNat_ofNat_of_lt' (by change _ < 2 ^ 16; omega)
  have htotal : (UInt16.ofNat (20 + 8 + msg.length)).toNat = 28 + msg.length := UInt16.toNat_ofNat_of_lt' (by change _ < 2 ^ 16; omega)
  have hzero : store16 0 = be16 0 := rfl
  simp only [EthernetFrame.bytes, EthernetHeader.bytes, IpHeader.bytes, UdpHeader.bytes, ChecksumFields.bytes,
    store16_bswap16, store32_bswap32, hzero]
  generalize UInt16.ofNat (8 + msg.length) = len at hlen ⊢
  generalize UInt16.ofNat (20 + 8 + msg.length) = total at htotal ⊢
  have hmacs : (List.ofFn ends.destMac ++ List.ofFn ends.localMac).length = 12 := by simp
  have hheader := ipOut_sum total ends.local_ip ends.dest_ip
  have hsum := udpOut_sum msg len ends.local_udp_port.toUInt16 ends.dest_udp_port.toUInt16 ends.local_ip ends.dest_ip
    (by omega)
  refine (receive_out _ msg behind total len _ _ ends.local_udp_port.toUInt16 ends.dest_udp_port.toUInt16
    ends.local_ip ends.dest_ip hmacs htotal hlen ?_ hheader hsum).trans ?_
  · exact checksum_ne_zero _ _
  · have hdst : (List.ofFn ends.destMac ++ List.ofFn ends.localMac).take 6 = List.ofFn ends.destMac := rfl
    have hsrc : (List.ofFn ends.destMac ++ List.ofFn ends.localMac).drop 6 = List.ofFn ends.localMac := rfl
    rw [hdst, hsrc, UInt32.toNat_toUInt16, UInt32.toNat_toUInt16, Endpoints.datagram]

def demo : Endpoints :=
  { localMac := ![0x10, 0xe2, 0xd5, 0x00, 0x00, 0x00], destMac := ![0x98, 0x48, 0x27, 0x51, 0x53, 0x1e]
    local_ip := 0xC0A80132, local_udp_port := 8001, dest_ip := 0xC0A800D4, dest_udp_port := 8002 }

def HELLO_MSG : List UInt8 :=
  [72, 101, 108, 108, 111, 32, 102, 114, 111, 109, 32, 101, 103, 111, 115, 45, 50, 48, 48, 48, 33, 10, 13, 0]

theorem frame_received_sample : ∃ frame, main demo HELLO_MSG = some frame ∧
    ∀ behind, receive (frame.bytes ++ behind) = some (demo.datagram HELLO_MSG) :=
  (frame_received demo HELLO_MSG (by decide)).2 rfl

end OsSuite.UdpDemo
