import Thunder.Core.Words
import Thunder.Library.Bytes
import Thunder.Library.OnesComplement
import Thunder.Library.Run
import Mathlib.Tactic.SplitIfs

/-! `UDPv4FrameType`: a UDP datagram in an IPv4 packet, as it stands in the memory of a machine with
the low byte of a word first. -/

namespace Thunder.Core

open Run

/-- The two bytes of a word in memory. -/
abbrev IPFrame.Word := UInt8 × UInt8

/-- `struct ip`, `struct udphdr` and what follows. -/
structure IPFrame where
  ipVersion : UInt8
  ipTos : UInt8
  ipLen : IPFrame.Word
  ipId : IPFrame.Word
  ipOff : IPFrame.Word
  ipTtl : UInt8
  ipP : UInt8
  ipSum : IPFrame.Word
  ipSrc : IPFrame.Word × IPFrame.Word
  ipDst : IPFrame.Word × IPFrame.Word
  uhSport : IPFrame.Word
  uhDport : IPFrame.Word
  uhUlen : IPFrame.Word
  uhSum : IPFrame.Word
  data : List UInt8

namespace IPFrame

open OnesComplement (total reduce)

/-- A word as the machine reads it. -/
def hostWord (w : Word) : Nat := w.1.toNat + 256 * w.2.toNat

def store (n : Nat) : Word := (UInt8.ofNat n, UInt8.ofNat (n / 256))

/-- A word in network order. -/
def ntohs (w : Word) : Nat := 256 * w.1.toNat + w.2.toNat

def htons (n : Nat) : Word := (UInt8.ofNat (n / 256), UInt8.ofNat n)

/-- A valid node has an address and a port. -/
structure NodeId where
  address : Word × Word
  portNumber : Nat

def ipBytes (f : IPFrame) : List UInt8 :=
  [f.ipVersion, f.ipTos, f.ipLen.1, f.ipLen.2, f.ipId.1, f.ipId.2, f.ipOff.1, f.ipOff.2, f.ipTtl,
    f.ipP, f.ipSum.1, f.ipSum.2, f.ipSrc.1.1, f.ipSrc.1.2, f.ipSrc.2.1, f.ipSrc.2.2, f.ipDst.1.1,
    f.ipDst.1.2, f.ipDst.2.1, f.ipDst.2.2]

def udpBytes (f : IPFrame) : List UInt8 :=
  [f.uhSport.1, f.uhSport.2, f.uhDport.1, f.uhDport.2, f.uhUlen.1, f.uhUlen.2, f.uhSum.1,
    f.uhSum.2] ++ f.data

/-! ### Checksums -/

/-- `Checksum` of some bytes, behind a sum of others. -/
def checksum (sum : Nat) : List UInt8 → Nat
  | [] => sum
  | [a] => u32 (sum + a.toNat)
  | a :: b :: l => checksum (u32 (sum + hostWord (a, b))) l

def shrink (value : Nat) : Nat :=
  let sum := if value > 0xFFFF then value % 65536 + value / 65536 else value
  u16 (2 ^ 32 - 1 - sum)

def ipChecksum (f : IPFrame) : Nat := shrink (checksum 0 { f with ipSum := (0, 0) }.ipBytes)

/-- `Length` of the packet. -/
def baseLength (f : IPFrame) : Nat := u16 (ntohs f.ipLen + 65536 - 20)

/-- `ntohl` of an address, whose bytes the pseudo header takes apart again. -/
def ntohl (a : Word × Word) : Nat := ntohs a.1 * 65536 + ntohs a.2

def pseudoHeader (f : IPFrame) : List UInt8 :=
  let length := f.baseLength
  let source := ntohl f.ipSrc
  let destination := ntohl f.ipDst
  [UInt8.ofNat (source >>> 24), UInt8.ofNat (source >>> 16), UInt8.ofNat (source >>> 8),
    UInt8.ofNat source, UInt8.ofNat (destination >>> 24), UInt8.ofNat (destination >>> 16),
    UInt8.ofNat (destination >>> 8), UInt8.ofNat destination, 0, f.ipP,
    UInt8.ofNat (length >>> 8), UInt8.ofNat length]

def udpChecksum (f : IPFrame) : Nat :=
  shrink (checksum (checksum 0 f.pseudoHeader)
    ({ f with uhSum := (0, 0) }.udpBytes.take f.baseLength))

def ipRefresh (f : IPFrame) : IPFrame := { f with ipSum := store f.ipChecksum }

def udpRefresh (f : IPFrame) : IPFrame := { f with uhSum := store f.udpChecksum }

/-- `IsValid` of a frame for `protocol`. -/
def isValid (protocol : UInt8) (f : IPFrame) : Bool :=
  f.ipP = protocol && f.ipChecksum = hostWord f.ipSum &&
    (hostWord f.uhSum = 0 || f.udpChecksum = hostWord f.uhSum)

/-! ### Setters -/

def baseLengthTo (f : IPFrame) (length : Nat) : IPFrame :=
  { f with ipLen := htons (u16 (length + 20)) }.ipRefresh

def lengthTo (f : IPFrame) (length : Nat) : IPFrame :=
  let f := { f with uhUlen := htons (u16 (8 + length)) }
  (f.baseLengthTo (u16 (8 + length))).udpRefresh

/-- The packet that the constructor makes, in memory that holds `data` behind the headers. -/
def packet (protocol : UInt8) (data : List UInt8) : IPFrame :=
  ipRefresh
    { ipVersion := 0x45, ipTos := 0, ipLen := htons 20, ipId := htons 0xBEEF, ipOff := (0, 0),
      ipTtl := 64, ipP := protocol, ipSum := (0, 0), ipSrc := ((0, 0), (0, 0)),
      ipDst := ((0, 0), (0, 0)), uhSport := (0, 0), uhDport := (0, 0), uhUlen := (0, 0),
      uhSum := (0, 0), data := data }

inductive Operation
  | source (node : Option NodeId)
  | destination (node : Option NodeId)
  | sourcePort (port : Nat)
  | destinationPort (port : Nat)
  | ttl (ttl : UInt8)
  | payload (bytes : List UInt8)

/-- The setters.  `payload` is written behind the headers, and `Length` is told. -/
def step (f : IPFrame) : Operation → IPFrame
  | .source none | .destination none => f
  | .source (some node) =>
    { { f with ipSrc := node.address }.ipRefresh with uhSport := htons node.portNumber }
  | .destination (some node) =>
    { { f with ipDst := node.address }.ipRefresh with uhDport := htons node.portNumber }
  | .sourcePort port => { f with uhSport := htons port }
  | .destinationPort port => { f with uhDport := htons port }
  | .ttl ttl => { f with ipTtl := ttl }.ipRefresh
  | .payload bytes => { f with data := Bytes.overwrite f.data 0 bytes }.lengthTo bytes.length

/-- The constructor without nodes, and with a source and a destination. -/
def new (protocol : UInt8) (data : List UInt8) : Option (NodeId × NodeId) → IPFrame
  | none => ((packet protocol data).baseLengthTo 8).udpRefresh
  | some (source, destination) =>
    let f := { packet protocol data with ipSrc := source.address }.ipRefresh
    let f := { f with ipDst := destination.address }.ipRefresh
    let f := { f with
      uhSport := htons source.portNumber, uhDport := htons destination.portNumber,
      uhUlen := (0, 0), uhSum := (0, 0) }
    (f.baseLengthTo 8).udpRefresh

/-! ### What the checksums are to be -/

/-- The words that a checksum is made of, with the low byte first. -/
def ipTotal (f : IPFrame) : Nat := total { f with ipSum := (0, 0) }.ipBytes

/-- The source, the destination, the protocol and the length. -/
def pseudo (f : IPFrame) : List UInt8 :=
  [f.ipSrc.1.1, f.ipSrc.1.2, f.ipSrc.2.1, f.ipSrc.2.2, f.ipDst.1.1, f.ipDst.1.2, f.ipDst.2.1,
    f.ipDst.2.2, 0, f.ipP, UInt8.ofNat (f.baseLength / 256), UInt8.ofNat f.baseLength]

/-- The pseudo header, the header and the payload. -/
def datagram (f : IPFrame) : List UInt8 :=
  f.pseudo ++ { f with uhSum := (0, 0) }.udpBytes.take f.baseLength

def udpTotal (f : IPFrame) : Nat := total f.datagram

/-- Both fields hold the checksums of what is in the frame, and it is accepted. -/
structure Right (protocol : UInt8) (f : IPFrame) : Prop where
  ip : ntohs f.ipSum = OnesComplement.checksum { f with ipSum := (0, 0) }.ipBytes
  udp : ntohs f.uhSum = OnesComplement.checksum f.datagram
  accepted : f.isValid protocol

/-- The carries of a sum fit after they were added once. -/
def OneFold (n : Nat) : Prop := n % 65536 + n / 65536 < 65536

instance (n : Nat) : Decidable (OneFold n) := inferInstanceAs (Decidable (_ < _))

/-- What an operation must leave: sums that fit after one fold; and where it does not refresh the
checksum of the datagram, a sum that is the same modulo 65535. -/
def Keeps (f : IPFrame) (op : Operation) : Prop :=
  OneFold (step f op).ipTotal ∧
    match op with
    | .payload _ => OneFold (step f op).udpTotal
    | _ => (step f op).udpTotal % 65535 = f.udpTotal % 65535 ∧
      (f.udpTotal % 65535 = 0 ∨ OneFold (step f op).udpTotal)

/-- There is room for the payload. -/
def InBuffer (f : IPFrame) : Operation → Prop
  | .payload bytes => bytes.length ≤ f.data.length
  | _ => True

/-- A packet with a datagram that is in the frame. -/
structure Whole (f : IPFrame) : Prop where
  header : 28 ≤ ntohs f.ipLen
  buffer : ntohs f.ipLen ≤ 28 + f.data.length

/-- A frame of another sender: no options, the lengths as they are, the checksums right.  A checksum
of zero is sent as ones, and zero stands for none. -/
structure Sent (protocol : UInt8) (f : IPFrame) : Prop where
  version : f.ipVersion = 0x45
  protocol : f.ipP = protocol
  length : ntohs f.uhUlen + 20 = ntohs f.ipLen
  whole : Whole f
  ip : ntohs f.ipSum = OnesComplement.checksum { f with ipSum := (0, 0) }.ipBytes
  udp : ntohs f.uhSum = 0 ∨ ntohs f.uhSum =
    if OnesComplement.checksum f.datagram = 0 then 65535 else OnesComplement.checksum f.datagram

def bytes (f : IPFrame) : List UInt8 := f.ipBytes ++ f.udpBytes

/-- The word `i` inside of the packet, or its odd last byte, is another one. -/
structure Changed (f g : IPFrame) (i : Nat) (l v w l' : List UInt8) : Prop where
  before : f.bytes = l ++ (v ++ l')
  after : g.bytes = l ++ (w ++ l')
  index : l.length = 2 * i
  inside : 2 * i < 20 + f.baseLength
  length : v.length = if 2 * i + 1 < 20 + f.baseLength then 2 else 1
  same : w.length = v.length
  ne : v ≠ w
  zero : ¬ (total v = 0 ∧ total w = 65535)
  ones : ¬ (total v = 65535 ∧ total w = 0)

/-- A changed word shows in the packet's header.  Behind it, it shows when the frame has a checksum,
and still has one. -/
def Shows (f g : IPFrame) (i : Nat) : Prop :=
  i < 10 ∨ (i ≠ 13 ∧ hostWord f.uhSum ≠ 0) ∨
    (i = 13 ∧ hostWord g.uhSum ≠ 0 ∧
      hostWord g.uhSum + (f.udpTotal % 65536 + f.udpTotal / 65536) % 65536 ≠ 65535)

/-! ### Words and sums -/

theorem ntohs_eq_zero_iff (w : Word) : ntohs w = 0 ↔ hostWord w = 0 := by
  simp only [ntohs, hostWord]
  omega

theorem hostWord_store {n : Nat} (h : n < 65536) : hostWord (store n) = n := by
  simp only [hostWord, store, UInt8.toNat_ofNat']
  omega

theorem ntohs_htons {n : Nat} (h : n < 65536) : ntohs (htons n) = n := by
  simp only [ntohs, htons, UInt8.toNat_ofNat']
  omega

theorem checksum_eq (l : List UInt8) (sum : Nat) (h : sum + total l < 2 ^ 32) :
    checksum sum l = sum + total l := by
  induction l using OnesComplement.words.induct generalizing sum with
  | case1 => rfl
  | case2 a => exact u32_of_lt h
  | case3 a b l ih =>
    simp only [total] at h
    simp only [checksum, hostWord, total]
    rw [u32_of_lt (by omega), ih _ (by omega)]
    omega

theorem shrink_eq {n : Nat} (h : n < 2 ^ 32) :
    shrink n = 65535 - (n % 65536 + n / 65536) % 65536 := by
  simp only [shrink, u16]
  split_ifs <;> omega

theorem shrink_lt (n : Nat) : shrink n < 65536 := Nat.mod_lt _ (by decide)

/-- A fold keeps what a sum stands for. -/
theorem reduce_fold (n : Nat) : reduce (n % 65536 + n / 65536) = reduce n := by
  unfold reduce
  rcases Nat.eq_zero_or_pos n with rfl | hpos
  · rfl
  · rw [if_neg (by omega), if_neg (by omega),
      show n - 1 = n % 65536 + n / 65536 - 1 + 65535 * (n / 65536) by omega,
      Nat.add_mul_mod_self_left]

/-- One fold gives the checksum exactly when it is enough. -/
theorem shrink_eq_iff {n : Nat} (h : n < 2 ^ 32) : shrink n = 65535 - reduce n ↔ OneFold n := by
  rw [shrink_eq h, ← reduce_fold, OneFold]
  have hfold : n % 65536 + n / 65536 < 131072 := by omega
  generalize n % 65536 + n / 65536 = fold at *
  unfold reduce
  split_ifs <;> omega

/-- The checksum is not all ones for a sum of something. -/
theorem shrink_lt_of_pos {n : Nat} (h : n < 2 ^ 32) (hpos : 0 < n) (hfull : reduce n = 65535) :
    shrink n < 65535 := by
  rw [shrink_eq h]
  rw [← reduce_fold] at hfull
  have hfold : n % 65536 + n / 65536 < 131072 := by omega
  have hfold' : 0 < n % 65536 + n / 65536 := by omega
  generalize n % 65536 + n / 65536 = fold at *
  rw [reduce, if_neg (by omega)] at hfull
  omega

/-- A sum that differs by what one word can differ by gives another checksum. -/
theorem shrink_ne {n n' : Nat} (h : n < 2 ^ 32) (h' : n' < 2 ^ 32) {v w : Nat} (hv : v < 65536)
    (hw : w < 65536) (hsum : n' + v = n + w) (hne : v ≠ w) (hzero : ¬ (v = 0 ∧ w = 65535))
    (hones : ¬ (v = 65535 ∧ w = 0)) : shrink n' ≠ shrink n := by
  rw [shrink_eq h, shrink_eq h']
  have hhigh : n' / 65536 = n / 65536 ∨ n' / 65536 = n / 65536 + 1 ∨
      n / 65536 = n' / 65536 + 1 := by omega
  rcases hhigh with hhigh | hhigh | hhigh <;> omega

variable {f g : IPFrame} {protocol : UInt8} {op : Operation}

theorem ipTotal_lt (f : IPFrame) : f.ipTotal < 2 ^ 32 :=
  lt_of_le_of_lt (OnesComplement.total_le _) (show 65535 * ((20 + 1) / 2) < 2 ^ 32 by decide)

theorem ipChecksum_eq (f : IPFrame) : f.ipChecksum = shrink f.ipTotal := by
  have hlt := ipTotal_lt f
  rw [ipChecksum, checksum_eq _ 0 (by simpa [ipTotal] using hlt), Nat.zero_add, ipTotal]

theorem pseudoHeader_eq (f : IPFrame) : f.pseudoHeader = f.pseudo := by
  have hbyte (a : Word × Word) :
      UInt8.ofNat (ntohl a >>> 24) = a.1.1 ∧ UInt8.ofNat (ntohl a >>> 16) = a.1.2 ∧
        UInt8.ofNat (ntohl a >>> 8) = a.2.1 ∧ UInt8.ofNat (ntohl a) = a.2.2 := by
    have := a.1.1.toNat_lt
    have := a.1.2.toNat_lt
    have := a.2.1.toNat_lt
    have := a.2.2.toNat_lt
    simp only [ntohl, ntohs, Nat.shiftRight_eq_div_pow, ← UInt8.toNat_inj, UInt8.toNat_ofNat']
    omega
  obtain ⟨h₁, h₂, h₃, h₄⟩ := hbyte f.ipSrc
  obtain ⟨h₅, h₆, h₇, h₈⟩ := hbyte f.ipDst
  simp only [pseudoHeader, pseudo, h₁, h₂, h₃, h₄, h₅, h₆, h₇, h₈,
    Nat.shiftRight_eq_div_pow f.baseLength 8, Nat.reducePow]

theorem udpTotal_eq (f : IPFrame) : f.udpTotal = total f.pseudo +
    total ({ f with uhSum := (0, 0) }.udpBytes.take f.baseLength) :=
  OnesComplement.total_append (by simp [pseudo]) _

theorem udpTotal_lt (f : IPFrame) : f.udpTotal < 2 ^ 32 := by
  have hpseudo := OnesComplement.total_le f.pseudo
  have hbytes := OnesComplement.total_le ({ f with uhSum := (0, 0) }.udpBytes.take f.baseLength)
  have hlength : ({ f with uhSum := (0, 0) }.udpBytes.take f.baseLength).length ≤ f.baseLength :=
    List.length_take_le ..
  have hbase : f.baseLength < 65536 := Nat.mod_lt _ (by decide)
  have htwelve : f.pseudo.length = 12 := rfl
  rw [udpTotal_eq]
  omega

theorem udpChecksum_eq (f : IPFrame) : f.udpChecksum = shrink f.udpTotal := by
  have hlt := udpTotal_lt f
  rw [udpTotal_eq] at hlt
  rw [udpChecksum, pseudoHeader_eq, checksum_eq f.pseudo 0 (by omega), Nat.zero_add,
    checksum_eq _ _ hlt, udpTotal_eq]

/-- The length is in the pseudo header. -/
theorem udpTotal_pos (h : 0 < f.baseLength) : 0 < f.udpTotal := by
  have hbase : f.baseLength < 65536 := Nat.mod_lt _ (by decide)
  rw [udpTotal_eq]
  simp only [pseudo, total, UInt8.toNat_ofNat']
  omega

/-! ### Frames built by the setters -/

/-- The packet's length is that of the headers with some payload, and its checksum was refreshed. -/
structure Built (protocol : UInt8) (size : Nat) (f : IPFrame) : Prop where
  protocol : f.ipP = protocol
  buffer : f.data.length = size
  length : 28 ≤ ntohs f.ipLen ∧ ntohs f.ipLen ≤ 28 + size
  ip : hostWord f.ipSum = shrink f.ipTotal

theorem Built.baseLength_eq {size : Nat} (h : Built protocol size f) :
    f.baseLength + 20 = ntohs f.ipLen := by
  have hle := h.length.1
  have hlt : ntohs f.ipLen < 65536 := by
    have := f.ipLen.1.toNat_lt
    have := f.ipLen.2.toNat_lt
    simp only [ntohs]
    omega
  simp only [baseLength, u16]
  omega

theorem Built.udpTotal_pos {size : Nat} (h : Built protocol size f) : 0 < f.udpTotal := by
  have := h.baseLength_eq
  have := h.length.1
  exact IPFrame.udpTotal_pos (by omega)

/-- The sum of the packet's header needs none of the rest, and no checksum. -/
theorem ipTotal_congr (hversion : g.ipVersion = f.ipVersion) (htos : g.ipTos = f.ipTos)
    (hlen : g.ipLen = f.ipLen) (hid : g.ipId = f.ipId) (hoff : g.ipOff = f.ipOff)
    (httl : g.ipTtl = f.ipTtl) (hp : g.ipP = f.ipP) (hsrc : g.ipSrc = f.ipSrc)
    (hdst : g.ipDst = f.ipDst) : g.ipTotal = f.ipTotal := by
  simp only [ipTotal, ipBytes, hversion, htos, hlen, hid, hoff, httl, hp, hsrc, hdst]

/-- The sum of the datagram needs a part of the packet's header, and no checksum. -/
theorem udpTotal_congr (hlen : g.ipLen = f.ipLen) (hp : g.ipP = f.ipP) (hsrc : g.ipSrc = f.ipSrc)
    (hdst : g.ipDst = f.ipDst) (hsport : g.uhSport = f.uhSport) (hdport : g.uhDport = f.uhDport)
    (hulen : g.uhUlen = f.uhUlen) (hdata : g.data = f.data) : g.udpTotal = f.udpTotal := by
  simp only [udpTotal, datagram, pseudo, baseLength, udpBytes, hlen, hp, hsrc, hdst, hsport, hdport,
    hulen, hdata]

theorem totals_ipSum (f : IPFrame) (w : Word) :
    { f with ipSum := w }.ipTotal = f.ipTotal ∧ { f with ipSum := w }.udpTotal = f.udpTotal :=
  ⟨ipTotal_congr rfl rfl rfl rfl rfl rfl rfl rfl rfl,
    udpTotal_congr rfl rfl rfl rfl rfl rfl rfl rfl⟩

/-- A refresh stores the checksum, and changes nothing else. -/
theorem ipRefresh_eq (f : IPFrame) :
    ∃ w, f.ipRefresh = { f with ipSum := w } ∧ hostWord w = shrink f.ipTotal := by
  refine ⟨store f.ipChecksum, rfl, ?_⟩
  rw [hostWord_store (by rw [ipChecksum_eq]; exact shrink_lt _), ipChecksum_eq]

theorem udpRefresh_eq (f : IPFrame) :
    ∃ w, f.udpRefresh = { f with uhSum := w } ∧ hostWord w = shrink f.udpTotal := by
  refine ⟨store f.udpChecksum, rfl, ?_⟩
  rw [hostWord_store (by rw [udpChecksum_eq]; exact shrink_lt _), udpChecksum_eq]

theorem baseLengthTo_eq (f : IPFrame) (length : Nat) (h : length + 20 < 65536) :
    ∃ len w, f.baseLengthTo length = { f with ipLen := len, ipSum := w } ∧
      ntohs len = length + 20 ∧ hostWord w = shrink { f with ipLen := len }.ipTotal := by
  obtain ⟨w, hw, hsum⟩ := ipRefresh_eq { f with ipLen := htons (u16 (length + 20)) }
  refine ⟨htons (u16 (length + 20)), w, hw, ?_, hsum⟩
  rw [u16_of_lt h, ntohs_htons h]

/-- Both checksums are those of a frame with the new length. -/
theorem lengthTo_eq (f : IPFrame) (length : Nat) (h : length + 28 < 65536) :
    ∃ ulen len w w', f.lengthTo length =
        { f with uhUlen := ulen, ipLen := len, ipSum := w, uhSum := w' } ∧
      ntohs len = length + 28 ∧
      hostWord w = shrink { f with uhUlen := ulen, ipLen := len }.ipTotal ∧
      hostWord w' = shrink { f with uhUlen := ulen, ipLen := len }.udpTotal := by
  have hlength : u16 (8 + length) + 20 = length + 28 := by
    rw [u16_of_lt (by omega)]
    omega
  obtain ⟨len, w, hbase, hlen, hsum⟩ := baseLengthTo_eq
    { f with uhUlen := htons (u16 (8 + length)) } (u16 (8 + length)) (by omega)
  obtain ⟨w', hudp, hsum'⟩ := udpRefresh_eq
    { f with uhUlen := htons (u16 (8 + length)), ipLen := len, ipSum := w }
  refine ⟨htons (u16 (8 + length)), len, w, w', ?_, hlen.trans hlength, hsum, ?_⟩
  · rw [lengthTo, hbase, hudp]
  · rw [hsum']
    exact congrArg shrink
      (totals_ipSum { f with uhUlen := htons (u16 (8 + length)), ipLen := len } w).2

theorem reduce_eq_iff {m n : Nat} (hm : 0 < m) (hn : 0 < n) :
    reduce m = reduce n ↔ m % 65535 = n % 65535 := by
  unfold reduce
  rw [if_neg (by omega), if_neg (by omega)]
  omega

theorem isValid_iff (f : IPFrame) : f.isValid protocol ↔
    f.ipP = protocol ∧ shrink f.ipTotal = hostWord f.ipSum ∧
      (hostWord f.uhSum = 0 ∨ shrink f.udpTotal = hostWord f.uhSum) := by
  simp only [isValid, ipChecksum_eq, udpChecksum_eq, Bool.and_eq_true, Bool.or_eq_true,
    decide_eq_true_eq, and_assoc]

theorem ip_right_iff (f : IPFrame) :
    ntohs f.ipSum = OnesComplement.checksum { f with ipSum := (0, 0) }.ipBytes ↔
      hostWord f.ipSum = 65535 - reduce f.ipTotal :=
  OnesComplement.eq_checksum_iff ..

theorem udp_right_iff (f : IPFrame) :
    ntohs f.uhSum = OnesComplement.checksum f.datagram ↔
      hostWord f.uhSum = 65535 - reduce f.udpTotal :=
  OnesComplement.eq_checksum_iff ..

/-- What is right, in terms of the sums. -/
theorem right_iff {size : Nat} (h : Built protocol size f) :
    f.Right protocol ↔ OneFold f.ipTotal ∧ hostWord f.uhSum = 65535 - reduce f.udpTotal ∧
      (f.udpTotal % 65535 = 0 ∨ OneFold f.udpTotal) := by
  have hpos := h.udpTotal_pos
  have hzero : hostWord f.uhSum = 65535 - reduce f.udpTotal →
      (hostWord f.uhSum = 0 ↔ f.udpTotal % 65535 = 0) := by
    intro hsum
    rw [hsum]
    unfold reduce
    rw [if_neg (by omega)]
    omega
  constructor
  · rintro ⟨hip, hudp, hvalid⟩
    rw [ip_right_iff, h.ip, shrink_eq_iff (ipTotal_lt f)] at hip
    rw [udp_right_iff] at hudp
    obtain ⟨-, -, hvalid⟩ := (isValid_iff f).mp hvalid
    refine ⟨hip, hudp, hvalid.imp (hzero hudp).mp fun hshrink => ?_⟩
    exact (shrink_eq_iff (udpTotal_lt f)).mp (hshrink.trans hudp)
  · rintro ⟨hip, hudp, hvalid⟩
    refine ⟨?_, (udp_right_iff f).mpr hudp, (isValid_iff f).mpr ⟨h.protocol, h.ip.symm, ?_⟩⟩
    · rw [ip_right_iff, h.ip, shrink_eq_iff (ipTotal_lt f)]
      exact hip
    · refine hvalid.imp (hzero hudp).mpr fun hfold => ?_
      rw [hudp]
      exact (shrink_eq_iff (udpTotal_lt f)).mpr hfold

/-- What a setter leaves: a refreshed packet header, and for the datagram a refreshed checksum or
the old one. -/
theorem step_built {size : Nat} (hsize : size + 28 < 65536) (h : Built protocol size f)
    (hroom : InBuffer f op) :
    Built protocol size (step f op) ∧
      match op with
      | .payload _ => hostWord (step f op).uhSum = shrink (step f op).udpTotal
      | _ => (step f op).uhSum = f.uhSum := by
  cases op with
  | source node =>
    cases node with
    | none => exact ⟨h, rfl⟩
    | some node =>
      obtain ⟨w, hw, hsum⟩ := ipRefresh_eq { f with ipSrc := node.address }
      simp only [step, hw]
      exact ⟨⟨h.protocol, h.buffer, h.length,
        hsum.trans (congrArg shrink (ipTotal_congr rfl rfl rfl rfl rfl rfl rfl rfl rfl))⟩, trivial⟩
  | destination node =>
    cases node with
    | none => exact ⟨h, rfl⟩
    | some node =>
      obtain ⟨w, hw, hsum⟩ := ipRefresh_eq { f with ipDst := node.address }
      simp only [step, hw]
      exact ⟨⟨h.protocol, h.buffer, h.length,
        hsum.trans (congrArg shrink (ipTotal_congr rfl rfl rfl rfl rfl rfl rfl rfl rfl))⟩, trivial⟩
  | sourcePort port =>
    exact ⟨⟨h.protocol, h.buffer, h.length,
      h.ip.trans (congrArg shrink (ipTotal_congr rfl rfl rfl rfl rfl rfl rfl rfl rfl))⟩, rfl⟩
  | destinationPort port =>
    exact ⟨⟨h.protocol, h.buffer, h.length,
      h.ip.trans (congrArg shrink (ipTotal_congr rfl rfl rfl rfl rfl rfl rfl rfl rfl))⟩, rfl⟩
  | ttl ttl =>
    obtain ⟨w, hw, hsum⟩ := ipRefresh_eq { f with ipTtl := ttl }
    simp only [step, hw]
    exact ⟨⟨h.protocol, h.buffer, h.length,
      hsum.trans (congrArg shrink (ipTotal_congr rfl rfl rfl rfl rfl rfl rfl rfl rfl))⟩, trivial⟩
  | payload bytes =>
    have hbytes : bytes.length ≤ size := h.buffer ▸ hroom
    obtain ⟨ulen, len, w, w', heq, hlen, hsum, hsum'⟩ :=
      lengthTo_eq { f with data := Bytes.overwrite f.data 0 bytes } bytes.length (by omega)
    simp only [step, heq]
    refine ⟨⟨h.protocol, ?_, by rw [hlen]; omega,
      hsum.trans (congrArg shrink (ipTotal_congr rfl rfl rfl rfl rfl rfl rfl rfl rfl))⟩,
      hsum'.trans (congrArg shrink (udpTotal_congr rfl rfl rfl rfl rfl rfl rfl rfl))⟩
    show (Bytes.overwrite f.data 0 bytes).length = size
    rw [Bytes.length_overwrite (by rw [h.buffer]; omega), h.buffer]

theorem right_step_iff {size : Nat} (hsize : size + 28 < 65536) (h : Built protocol size f)
    (hright : f.Right protocol) (hroom : InBuffer f op) :
    (step f op).Right protocol ↔ Keeps f op := by
  obtain ⟨h', hsum'⟩ := step_built hsize h hroom
  have hpos := h.udpTotal_pos
  have hpos' := h'.udpTotal_pos
  obtain ⟨-, hsum, -⟩ := (right_iff h).mp hright
  rw [right_iff h']
  unfold Keeps
  refine and_congr_right fun _ => ?_
  -- the old checksum is right when the sums are the same
  have hold : (step f op).uhSum = f.uhSum →
      (hostWord (step f op).uhSum = 65535 - reduce (step f op).udpTotal ↔
        (step f op).udpTotal % 65535 = f.udpTotal % 65535) := by
    intro heq
    have hlt := OnesComplement.reduce_lt f.udpTotal
    have hlt' := OnesComplement.reduce_lt (step f op).udpTotal
    rw [heq, hsum, ← reduce_eq_iff hpos' hpos]
    omega
  have hrest : (step f op).uhSum = f.uhSum →
      (hostWord (step f op).uhSum = 65535 - reduce (step f op).udpTotal ∧
          ((step f op).udpTotal % 65535 = 0 ∨ OneFold (step f op).udpTotal) ↔
        (step f op).udpTotal % 65535 = f.udpTotal % 65535 ∧
          (f.udpTotal % 65535 = 0 ∨ OneFold (step f op).udpTotal)) := by
    intro heq
    rw [hold heq]
    exact and_congr_right fun hmod => by rw [hmod]
  cases op with
  | payload bytes =>
    rw [hsum', shrink_eq_iff (udpTotal_lt _)]
    exact ⟨fun h => h.1, fun h => ⟨h, .inr h⟩⟩
  | source => exact hrest hsum'
  | destination => exact hrest hsum'
  | sourcePort => exact hrest hsum'
  | destinationPort => exact hrest hsum'
  | ttl => exact hrest hsum'

/-- Both constructors leave refreshed checksums. -/
theorem refreshed_built (hprotocol : f.ipP = protocol) {size : Nat} (hdata : f.data.length = size) :
    Built protocol size (f.baseLengthTo 8).udpRefresh ∧
      hostWord (f.baseLengthTo 8).udpRefresh.uhSum =
        shrink (f.baseLengthTo 8).udpRefresh.udpTotal := by
  obtain ⟨len, w, hbase, hlen, hsum⟩ := baseLengthTo_eq f 8 (by decide)
  obtain ⟨w', hudp, hsum'⟩ := udpRefresh_eq { f with ipLen := len, ipSum := w }
  rw [hbase, hudp]
  refine ⟨⟨hprotocol, hdata, by rw [hlen]; omega,
    hsum.trans (congrArg shrink (ipTotal_congr rfl rfl rfl rfl rfl rfl rfl rfl rfl))⟩,
    hsum'.trans (congrArg shrink (udpTotal_congr rfl rfl rfl rfl rfl rfl rfl rfl))⟩

theorem new_built (protocol : UInt8) (data : List UInt8) (nodes : Option (NodeId × NodeId)) :
    Built protocol data.length (new protocol data nodes) ∧
      hostWord (new protocol data nodes).uhSum = shrink (new protocol data nodes).udpTotal := by
  cases nodes with
  | none =>
    rw [new]
    exact refreshed_built (by rfl) (by rfl)
  | some nodes =>
    obtain ⟨source, destination⟩ := nodes
    rw [new]
    exact refreshed_built (by rfl) (by rfl)

theorem right_new_iff (protocol : UInt8) (data : List UInt8) (nodes : Option (NodeId × NodeId)) :
    (new protocol data nodes).Right protocol ↔
      OneFold (new protocol data nodes).ipTotal ∧ OneFold (new protocol data nodes).udpTotal := by
  obtain ⟨h, hsum⟩ := new_built protocol data nodes
  rw [right_iff h, hsum, shrink_eq_iff (udpTotal_lt _)]
  exact and_congr_right fun _ => ⟨fun h => h.1, fun h => ⟨h, .inr h⟩⟩

theorem always_right_iff {data : List UInt8} (hsize : data.length + 28 < 65536)
    (nodes : Option (NodeId × NodeId)) {ops : List Operation}
    (hroom : Meets step InBuffer (new protocol data nodes) ops) :
    Always step (Right protocol) (new protocol data nodes) ops ↔
      (OneFold (new protocol data nodes).ipTotal ∧ OneFold (new protocol data nodes).udpTotal) ∧
        Meets step Keeps (new protocol data nodes) ops := by
  rw [← right_new_iff]
  have hrun (hright : (new protocol data nodes).Right protocol) :
      Always step (Right protocol) (new protocol data nodes) ops ↔
        Meets step Keeps (new protocol data nodes) ops :=
    always_iff_within (I := fun f => Built protocol data.length f ∧ f.Right protocol)
      (fun f op h hroom hkeeps => ⟨(step_built hsize h.1 hroom).1,
        (right_step_iff hsize h.1 h.2 hroom).mpr hkeeps⟩)
      (fun _ h => h.2) (fun f op h hroom => (right_step_iff hsize h.1 h.2 hroom).mp)
      ⟨(new_built protocol data nodes).1, hright⟩ hroom
  exact ⟨fun h => ⟨h.first, (hrun h.first).mp h⟩, fun h => (hrun h.1).mpr h.2⟩

/-! ### Frames that arrive -/

/-- A frame of another sender is accepted exactly when one fold is enough, and the checksum of the
datagram is not the one that was sent as ones. -/
theorem Sent.isValid_iff (h : Sent protocol f) :
    f.isValid protocol ↔ OneFold f.ipTotal ∧
      (ntohs f.uhSum = 0 ∨ (OneFold f.udpTotal ∧ f.udpTotal % 65535 ≠ 0)) := by
  have hip : shrink f.ipTotal = hostWord f.ipSum ↔ OneFold f.ipTotal := by
    rw [(ip_right_iff f).mp h.ip, shrink_eq_iff (ipTotal_lt f)]
  have hpos : 0 < f.udpTotal := by
    refine udpTotal_pos ?_
    have := h.whole.header
    have := f.ipLen.1.toNat_lt
    have := f.ipLen.2.toNat_lt
    simp only [baseLength, u16, ntohs] at *
    omega
  rw [IPFrame.isValid_iff, hip, ntohs_eq_zero_iff]
  simp only [h.protocol, true_and]
  refine and_congr_right fun _ => or_congr_right' fun hnone => ?_
  have hsent := h.udp.resolve_left ((ntohs_eq_zero_iff _).not.mpr hnone)
  have hreduce : reduce f.udpTotal = (f.udpTotal - 1) % 65535 + 1 := if_neg (by omega)
  split_ifs at hsent with hzero
  · -- the sender's ones, where the sum is all ones
    have hall : ntohs f.uhSum = 65535 := hsent
    have hones : hostWord f.uhSum = 65535 := by
      have := f.uhSum.1.toNat_lt
      have := f.uhSum.2.toNat_lt
      simp only [ntohs, hostWord] at *
      omega
    have hsum : 65535 - reduce f.udpTotal = 0 := by
      have hiff := OnesComplement.eq_checksum_iff 0 0 f.datagram
      rw [hzero] at hiff
      exact (hiff.mp rfl).symm
    have hmod : f.udpTotal % 65535 = 0 := by omega
    refine iff_of_false ?_ fun h => h.2 hmod
    have hlt := shrink_lt_of_pos (udpTotal_lt f) hpos (by omega)
    omega
  · have hudp := (udp_right_iff f).mp hsent
    rw [hudp, shrink_eq_iff (udpTotal_lt f)]
    refine ⟨fun hfold => ⟨hfold, ?_⟩, fun h => h.1⟩
    omega

/-! ### Words that change -/

theorem total_inside {l : List UInt8} (heven : l.length % 2 = 0) {v : List UInt8}
    (hv : v.length = 2) (l' : List UInt8) :
    total (l ++ (v ++ l')) = total l + total v + total l' := by
  rw [OnesComplement.total_append heven, OnesComplement.total_append (by omega), Nat.add_assoc]

theorem getElem?_outside (l : List UInt8) {v w : List UInt8} (hlength : w.length = v.length)
    (l' : List UInt8) {j : Nat} (hj : j < l.length ∨ l.length + v.length ≤ j) :
    (l ++ (w ++ l'))[j]? = (l ++ (v ++ l'))[j]? := by
  rcases hj with hj | hj
  · rw [List.getElem?_append_left hj, List.getElem?_append_left hj]
  · rw [List.getElem?_append_right (by omega), List.getElem?_append_right (by omega),
      List.getElem?_append_right (by omega), List.getElem?_append_right (by omega), hlength]

theorem ip_total_eq (f : IPFrame) : total f.ipBytes = f.ipTotal + hostWord f.ipSum := by
  simp only [ipTotal, ipBytes, total, hostWord]
  have : (0 : UInt8).toNat = 0 := rfl
  omega

theorem Changed.total_ne {i : Nat} {l v w l' : List UInt8} (h : Changed f g i l v w l') :
    total v ≠ total w ∧ total v < 65536 ∧ total w < 65536 := by
  have hlength := h.length
  have hsame := h.same
  have hne := h.ne
  have hcases : v.length = 2 ∨ v.length = 1 := by
    split_ifs at hlength <;> omega
  rcases hcases with htwo | hone
  · obtain ⟨a, b, rfl⟩ := List.length_eq_two.mp htwo
    obtain ⟨c, d, rfl⟩ := List.length_eq_two.mp (hsame.trans htwo)
    have := a.toNat_lt
    have := b.toNat_lt
    have := c.toNat_lt
    have := d.toNat_lt
    refine ⟨fun heq => hne ?_, ?_, ?_⟩
    · simp only [total] at heq
      have hac : a = c := UInt8.toNat_inj.mp (by omega)
      have hbd : b = d := UInt8.toNat_inj.mp (by omega)
      rw [hac, hbd]
    · simp only [total]
      omega
    · simp only [total]
      omega
  · obtain ⟨a, rfl⟩ := List.length_eq_one_iff.mp hone
    obtain ⟨c, rfl⟩ := List.length_eq_one_iff.mp (hsame.trans hone)
    have := a.toNat_lt
    have := c.toNat_lt
    refine ⟨fun heq => hne ?_, ?_, ?_⟩
    · exact congrArg (fun x => [x]) (UInt8.toNat_inj.mp heq)
    · exact lt_of_lt_of_le a.toNat_lt (by decide)
    · exact lt_of_lt_of_le c.toNat_lt (by decide)

/-- A word of the packet's header. -/
theorem Changed.header {i : Nat} {l v w l' : List UInt8} (h : Changed f g i l v w l') (hi : i < 10)
    (hvalid : f.isValid protocol) : ¬ g.isValid protocol := by
  obtain ⟨hne, hv, hw⟩ := h.total_ne
  obtain ⟨-, hsum, -⟩ := (isValid_iff f).mp hvalid
  intro hvalid'
  obtain ⟨-, hsum', -⟩ := (isValid_iff g).mp hvalid'
  have hindex := h.index
  have hlength : v.length = 2 := by
    have := h.length
    rwa [if_pos (by omega)] at this
  have hlength' : w.length = 2 := h.same.trans hlength
  -- both headers around the word
  have hhead (x : IPFrame) (u : List UInt8) (hu : u.length = 2)
      (hbytes : x.bytes = l ++ (u ++ l')) : x.ipBytes = l ++ (u ++ l'.take (18 - l.length)) := by
    have htake : x.bytes.take 20 = x.ipBytes := by
      have hlength : x.ipBytes.length = 20 := rfl
      rw [bytes, List.take_left' hlength]
    rw [← htake, hbytes, List.take_append, List.take_append, List.take_of_length_le (by omega),
      List.take_of_length_le (by omega), show 20 - l.length - u.length = 18 - l.length by omega]
  have hf := hhead f v hlength h.before
  have hg := hhead g w hlength' h.after
  have heven : l.length % 2 = 0 := by omega
  have htotal := ip_total_eq f
  have htotal' := ip_total_eq g
  rw [hf, total_inside heven hlength] at htotal
  rw [hg, total_inside heven hlength'] at htotal'
  rcases eq_or_ne i 5 with rfl | hother
  · -- the checksum itself
    have hat (x : IPFrame) (u : List UInt8) (hu : u.length = 2)
        (hbytes : x.ipBytes = l ++ (u ++ l'.take (18 - l.length))) :
        total u = hostWord x.ipSum := by
      have hdrop : (x.ipBytes.drop 10).take 2 = [x.ipSum.1, x.ipSum.2] := rfl
      rw [hbytes, List.drop_append, List.drop_of_length_le (by omega), List.nil_append,
        show 10 - l.length = 0 by omega, List.drop_zero, List.take_left' hu] at hdrop
      rw [hdrop]
      rfl
    have hvsum := hat f v hlength hf
    have hwsum := hat g w hlength' hg
    have hsame : g.ipTotal = f.ipTotal := by omega
    rw [hsame] at hsum'
    omega
  · have hfield : g.ipSum = f.ipSum := by
      have hget (j : Nat) (hj : j / 2 ≠ i) : g.ipBytes[j]? = f.ipBytes[j]? := by
        rw [hf, hg]
        exact getElem?_outside l h.same _ (by omega)
      have h₁ := hget 10 (by omega)
      have h₂ := hget 11 (by omega)
      exact Prod.ext (Option.some.inj h₁) (Option.some.inj h₂)
    rw [hfield] at htotal' hsum'
    exact shrink_ne (ipTotal_lt f) (ipTotal_lt g) hv hw (by omega) hne h.zero h.ones
      (hsum'.trans hsum.symm)

/-- The headers of two packets are the same when their bytes are. -/
theorem of_ipBytes_eq (h : g.ipBytes = f.ipBytes) :
    g.ipTotal = f.ipTotal ∧ g.ipSum = f.ipSum ∧ g.ipP = f.ipP ∧ g.baseLength = f.baseLength ∧
      g.pseudo = f.pseudo := by
  have htotal := ip_total_eq f
  rw [← h, ip_total_eq g] at htotal
  simp only [ipBytes, List.cons.injEq, and_true] at h
  obtain ⟨-, -, hl₁, hl₂, -, -, -, -, -, hp, hs₁, hs₂, hsrc₁, hsrc₂, hsrc₃, hsrc₄, hdst₁, hdst₂,
    hdst₃, hdst₄⟩ := h
  have hsum : g.ipSum = f.ipSum := Prod.ext hs₁ hs₂
  have hlength : g.baseLength = f.baseLength := by simp only [baseLength, ntohs, hl₁, hl₂]
  rw [hsum] at htotal
  refine ⟨by omega, hsum, hp, hlength, ?_⟩
  simp only [pseudo, hlength, hp, hsrc₁, hsrc₂, hsrc₃, hsrc₄, hdst₁, hdst₂, hdst₃, hdst₄]

theorem udp_total_eq {n : Nat} (hn : 8 ≤ n) (f : IPFrame) :
    total (f.udpBytes.take n) =
      total ({ f with uhSum := (0, 0) }.udpBytes.take n) + hostWord f.uhSum := by
  have htake (x : IPFrame) : x.udpBytes.take n =
      [x.uhSport.1, x.uhSport.2, x.uhDport.1, x.uhDport.2, x.uhUlen.1, x.uhUlen.2, x.uhSum.1,
        x.uhSum.2] ++ x.data.take (n - 8) := by
    rw [udpBytes, List.take_append, List.take_of_length_le hn]
    rfl
  rw [htake, htake]
  simp only [List.cons_append, List.nil_append, total, hostWord]
  have : (0 : UInt8).toNat = 0 := rfl
  omega

/-- The datagram around a word. -/
theorem total_datagram {x : IPFrame} {n i : Nat} {l u l' : List UInt8}
    (hbytes : x.bytes = l ++ (u ++ l')) (hindex : l.length = 2 * i) (hi : 10 ≤ i)
    (hinside : 2 * i < 20 + n) (hlength : u.length = if 2 * i + 1 < 20 + n then 2 else 1) :
    total (x.udpBytes.take n) =
      total (l.drop 20) + total u + total (l'.take (n - (2 * i - 20) - u.length)) := by
  have hdrop : x.bytes.drop 20 = x.udpBytes := by
    have hlength : x.ipBytes.length = 20 := rfl
    rw [bytes, List.drop_left' hlength]
  have hrest : (l.drop 20).length = 2 * i - 20 := by rw [List.length_drop, hindex]
  rw [← hdrop, hbytes, List.drop_append_of_le_length (by omega), List.take_append, hrest,
    List.take_of_length_le (by omega), List.take_append]
  split_ifs at hlength with hword
  · rw [List.take_of_length_le (by omega), total_inside (by omega) hlength]
  · rw [List.take_of_length_le (by omega), OnesComplement.total_append (by omega),
      show n - (2 * i - 20) - u.length = 0 by omega, List.take_zero, List.append_nil]
    rfl

theorem Changed.same_header {i : Nat} {l v w l' : List UInt8} (h : Changed f g i l v w l')
    (hi : 10 ≤ i) : g.ipBytes = f.ipBytes := by
  have hindex := h.index
  have htake (x : IPFrame) (u : List UInt8) (hbytes : x.bytes = l ++ (u ++ l')) :
      x.ipBytes = l.take 20 := by
    have hlength : x.ipBytes.length = 20 := rfl
    have hhead : x.bytes.take 20 = x.ipBytes := by rw [bytes, List.take_left' hlength]
    rw [← hhead, hbytes, List.take_append_of_le_length (by omega)]
  rw [htake f v h.before, htake g w h.after]

/-- A word of the datagram. -/
theorem Changed.datagram {i : Nat} {l v w l' : List UInt8} (h : Changed f g i l v w l')
    (hi : 10 ≤ i) (hheader : 8 ≤ f.baseLength) (hvalid : f.isValid protocol) :
    ¬ g.isValid protocol ↔ Shows f g i := by
  obtain ⟨hne, hv, hw⟩ := h.total_ne
  obtain ⟨hip, hsum, hudp⟩ := (isValid_iff f).mp hvalid
  obtain ⟨htotal, hipSum, hp, hbase, hpseudo⟩ := of_ipBytes_eq (h.same_header hi)
  have hvalid' : g.isValid protocol ↔
      hostWord g.uhSum = 0 ∨ shrink g.udpTotal = hostWord g.uhSum := by
    rw [isValid_iff, hp, htotal, hipSum]
    simp only [hip, hsum, true_and]
  have hindex := h.index
  have hlength := h.length
  have hsame := h.same
  have hf := total_datagram h.before h.index hi h.inside h.length
  have hg := total_datagram h.after h.index hi h.inside (h.same.trans h.length)
  rw [hsame] at hg
  -- the sums differ by the word, without the checksums
  have hsums : g.udpTotal + hostWord g.uhSum + total v =
      f.udpTotal + hostWord f.uhSum + total w := by
    rw [udp_total_eq hheader] at hf hg
    have htotalf := udpTotal_eq f
    have htotalg := udpTotal_eq g
    rw [hbase, hpseudo] at htotalg
    omega
  have hget (j : Nat) (hj : j / 2 ≠ i) : g.bytes[j]? = f.bytes[j]? := by
    rw [h.before, h.after]
    refine getElem?_outside l hsame _ ?_
    have := h.inside
    split_ifs at hlength <;> omega
  have hfold := shrink_eq (udpTotal_lt f)
  rw [hvalid', Shows]
  rcases eq_or_ne i 13 with rfl | hother
  · -- the checksum itself
    have htwo : v.length = 2 := hlength.trans (if_pos (by omega))
    have hat (x : IPFrame) (u : List UInt8) (hu : u.length = 2)
        (hbytes : x.bytes = l ++ (u ++ l')) : total u = hostWord x.uhSum := by
      have hdrop : (x.bytes.drop 26).take 2 = [x.uhSum.1, x.uhSum.2] := rfl
      rw [hbytes, List.drop_append, List.drop_of_length_le (by omega), List.nil_append,
        show 26 - l.length = 0 by omega, List.drop_zero, List.take_left' hu] at hdrop
      rw [hdrop]
      rfl
    have hvsum := hat f v htwo h.before
    have hwsum := hat g w (hsame.trans htwo) h.after
    have hequal : g.udpTotal = f.udpTotal := by omega
    rw [hequal, hfold]
    omega
  · have hfield : g.uhSum = f.uhSum :=
      Prod.ext (Option.some.inj (hget 26 (by omega))) (Option.some.inj (hget 27 (by omega)))
    have hdiffer := shrink_ne (udpTotal_lt f) (udpTotal_lt g) hv hw (by rw [hfield] at hsums; omega)
      hne h.zero h.ones
    rw [hfield]
    rcases hudp with hnone | hudp
    · omega
    · rw [← hudp]
      omega

theorem rejected_iff {i : Nat} {l v w l' : List UInt8} (hwhole : Whole f)
    (hvalid : f.isValid protocol) (h : Changed f g i l v w l') :
    ¬ g.isValid protocol ↔ Shows f g i := by
  rcases Nat.lt_or_ge i 10 with hi | hi
  · exact iff_of_true (h.header hi hvalid) (.inl hi)
  · refine h.datagram hi ?_ hvalid
    have := hwhole.header
    have := f.ipLen.1.toNat_lt
    have := f.ipLen.2.toNat_lt
    simp only [baseLength, u16, ntohs] at *
    omega

/-! ### Frames built, received and changed -/

/-- When the checksums of a frame are right through all of its setters, when a frame of another
sender is accepted, and when a changed word is noticed. -/
theorem checksums_iff (protocol : UInt8) :
    (∀ (data : List UInt8) (nodes : Option (NodeId × NodeId)) (ops : List Operation),
      data.length + 28 < 65536 → Meets step InBuffer (new protocol data nodes) ops →
        (Always step (Right protocol) (new protocol data nodes) ops ↔
          (OneFold (new protocol data nodes).ipTotal ∧
            OneFold (new protocol data nodes).udpTotal) ∧
          Meets step Keeps (new protocol data nodes) ops)) ∧
    (∀ f : IPFrame, Sent protocol f →
      (f.isValid protocol ↔ OneFold f.ipTotal ∧
        (ntohs f.uhSum = 0 ∨ (OneFold f.udpTotal ∧ f.udpTotal % 65535 ≠ 0)))) ∧
    ∀ (f g : IPFrame) (i : Nat) (l v w l' : List UInt8), Whole f → f.isValid protocol →
      Changed f g i l v w l' → (¬ g.isValid protocol ↔ Shows f g i) :=
  ⟨fun _ nodes _ hsize hroom => always_right_iff hsize nodes hroom, fun _ h => h.isValid_iff,
    fun _ _ _ _ _ _ _ hwhole hvalid h => rejected_iff hwhole hvalid h⟩

/-- A frame with one byte of payload. -/
def sample : IPFrame := step (new 17 [0, 0] none) (.payload [7])

theorem checksums_sample :
    Always step (Right 17) (new 17 [0, 0] none) [.payload [7]] ∧ sample.isValid 17 ∧
      ¬ { sample with data := [8, 0] }.isValid 17 := by
  obtain ⟨hbuilt, hsent, hchanged⟩ := checksums_iff 17
  have hroom : [(7 : UInt8)].length ≤ [(0 : UInt8), 0].length := by decide
  have hudp : OneFold sample.udpTotal := by decide
  have hvalid : sample.isValid 17 :=
    (hsent sample ⟨rfl, rfl, by decide, ⟨by decide, by decide⟩, by decide, .inr (by decide)⟩).mpr
      ⟨by decide, .inr ⟨hudp, by decide⟩⟩
  refine ⟨(hbuilt [0, 0] none [.payload [7]] (by decide) ⟨hroom, trivial⟩).mpr
    ⟨⟨by decide, by decide⟩, ⟨by decide, hudp⟩, trivial⟩, hvalid, ?_⟩
  refine (hchanged sample _ 14 (sample.bytes.take 28) [7] [8] [0] ⟨by decide, by decide⟩ hvalid
    ⟨by decide, by decide, by decide, by decide, by decide, rfl, by decide, by decide,
      by decide⟩).mpr ?_
  exact .inr (.inl ⟨by decide, by decide⟩)

/-- A datagram is accepted whose checksum was changed to none, and a port that is set behind the
constructor leaves the old checksum in place. -/
theorem not_checksums :
    (Changed sample { sample with uhSum := (0, 0) } 13 (sample.bytes.take 26)
        [sample.uhSum.1, sample.uhSum.2] [0, 0] [7, 0] ∧
      sample.isValid 17 ∧ { sample with uhSum := (0, 0) }.isValid 17) ∧
    Meets step InBuffer (new 17 [] none) [.sourcePort 1] ∧
      ¬ Always step (Right 17) (new 17 [] none) [.sourcePort 1] := by
  refine ⟨⟨⟨by decide, by decide, by decide, by decide, by decide, rfl, by decide, by decide,
    by decide⟩, by decide, by decide⟩, ⟨trivial, trivial⟩, fun h => ?_⟩
  have hvalid := h.last.accepted
  exact absurd hvalid (by decide)

end IPFrame

end Thunder.Core
