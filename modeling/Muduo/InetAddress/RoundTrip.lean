import Muduo.Foundations.Numeral
import Muduo.InetAddress

/-!
# Addresses and their texts

An `InetAddress` is made from a port and a text, which `inet_addr` reads: up to four numbers with
dots between them, decimal, octal or hexadecimal, of which the last fills the bytes that are left. A
text that is no address is not reported, and stands for `255.255.255.255`. Whatever an address
prints is read back as this address (`roundTrip`), so that its text names it.
-/

namespace Muduo

open Run Numeral

namespace InetAddress

/-! ## Reading -/

/-- `isspace`. -/
def isspace (c : Char) : Bool := c ∈ [' ', '\t', '\n', '\x0b', '\x0c', '\r']

/-- The numbers of the text, of which at most `dots` are followed by a dot. -/
def parts (dots : ℕ) (text : List Char) : Option (List ℕ) :=
  if text.head?.any Char.isDigit then
    let (val, rest) := strtoul text
    if 0xffffffff < val then none
    else
      match dots, rest with
      | dots + 1, '.' :: rest => if 0xff < val then none else (parts dots rest).map (val :: ·)
      | _, [] => some [val]
      | _, c :: _ => if isspace c then some [val] else none
  else none

/-- The bytes of the numbers; the last fills those that are left. -/
def ofParts : List ℕ → Option (UInt8 × UInt8 × UInt8 × UInt8)
  | [v] => if v ≤ 0xffffffff then
      some (.ofNat (v / 2 ^ 24), .ofNat (v / 2 ^ 16), .ofNat (v / 2 ^ 8), .ofNat v) else none
  | [p, v] => if v ≤ 0xffffff then
      some (.ofNat p, .ofNat (v / 2 ^ 16), .ofNat (v / 2 ^ 8), .ofNat v) else none
  | [p, q, v] => if v ≤ 0xffff then some (.ofNat p, .ofNat q, .ofNat (v / 2 ^ 8), .ofNat v) else none
  | [p, q, r, v] => if v ≤ 0xff then some (.ofNat p, .ofNat q, .ofNat r, .ofNat v) else none
  | _ => none

/-- What `inet_addr` returns for a text that is no address. -/
def INADDR_NONE : UInt8 × UInt8 × UInt8 × UInt8 := (255, 255, 255, 255)

/-- `inet_addr`. -/
def inet_addr (cp : List Char) : UInt8 × UInt8 × UInt8 × UInt8 :=
  ((parts 3 (cStr cp)).bind ofParts).getD INADDR_NONE

/-- `htons`. -/
def htons (n : UInt16) : UInt16 := ntohs n

/-- The constructor. -/
def construct (port : UInt16) (ip : List Char) : InetAddress where
  s_addr := inet_addr ip
  sin_port := htons port

/-! ## Printing -/

/-- `toIp`: the address in dotted decimals. -/
def toIp (a : InetAddress) : List Char := cStr (a.inet_ntop 64)

/-- `toPort`: the port in the order of the machine. -/
def toPort (a : InetAddress) : UInt16 := ntohs a.sin_port

/-- The text is four decimal numbers below 256 with dots between them, none with a leading zero. -/
def Dotted (text : List Char) : Prop := ∃ p q r t : UInt8,
  text = formatUnsigned p.toNat ++ '.' :: formatUnsigned q.toNat ++ '.' :: formatUnsigned r.toNat ++
    '.' :: formatUnsigned t.toNat

/-! ## The round trip -/

/-- Swapping the bytes twice. -/
theorem ntohs_ntohs (n : UInt16) : Muduo.ntohs (Muduo.ntohs n) = n := by
  refine UInt16.toBitVec_inj.1 (BitVec.eq_of_getElem_eq fun i hi => ?_)
  have hhigh : n.toBitVec.getLsbD (8 + (8 + i)) = false := BitVec.getLsbD_of_ge _ _ (by omega)
  have hself : n.toBitVec.getLsbD i = n.toBitVec[i] := BitVec.getLsbD_eq_getElem hi
  rcases Nat.lt_or_ge i 8 with hlt | hge
  · have hlow : 8 + i < 16 := by omega
    simp [Muduo.ntohs, hlt, hlow, hhigh]
  · have hlow : i - 8 < 8 := by omega
    have hnot : ¬i < 8 := by omega
    have hback : 8 + (i - 8) = i := by omega
    simp [Muduo.ntohs, hnot, hlow, hback, hhigh, hself]

theorem isDigit_head (n : ℕ) (rest : List Char) :
    (formatUnsigned n ++ rest).head?.any Char.isDigit = true := by
  cases htext : formatUnsigned n with
  | nil => exact absurd htext Nat.toDigits_ne_nil
  | cons c cs =>
    have hc : c.isDigit = true := isDigit_of_mem_formatUnsigned (htext ▸ List.mem_cons_self)
    rw [List.cons_append, List.head?_cons, Option.any_some]
    exact hc

/-- The last number of a printed address. -/
theorem parts_last (b : UInt8) (dots : ℕ) : parts dots (formatUnsigned b.toNat) = some [b.toNat] := by
  have hb : ¬0xffffffff < b.toNat := by
    have hlt := b.toNat_lt
    omega
  have hread : strtoul (formatUnsigned b.toNat) = (b.toNat, []) := by
    have hread := strtoul_toDigits b.toNat stops_nil
    rwa [List.append_nil] at hread
  have hhead := isDigit_head b.toNat []
  rw [List.append_nil] at hhead
  unfold parts
  rw [if_pos hhead, hread]
  simp only [if_neg hb]

/-- A number of a printed address that is followed by a dot. -/
theorem parts_dot (b : UInt8) (dots : ℕ) (rest : List Char) :
    parts (dots + 1) (formatUnsigned b.toNat ++ '.' :: rest) =
      (parts dots rest).map (b.toNat :: ·) := by
  have hlt := b.toNat_lt
  have hb : ¬0xffffffff < b.toNat := by omega
  have hbyte : ¬0xff < b.toNat := by omega
  have hread : strtoul (formatUnsigned b.toNat ++ '.' :: rest) = (b.toNat, '.' :: rest) :=
    strtoul_toDigits b.toNat (stops_cons (by decide))
  rw [parts, if_pos (isDigit_head _ _), hread]
  simp only [if_neg hb, if_neg hbyte]

/-- The characters of a printed address are digits and dots. -/
theorem isDigit_of_mem_dotted {a : InetAddress} {c : Char} (h : c ∈ a.dotted) :
    c.isDigit = true ∨ c = '.' := by
  simp only [dotted, List.mem_append, List.mem_cons] at h
  rcases h with (((h | rfl | h) | rfl | h) | rfl | h)
  all_goals first | exact .inr rfl | exact .inl (isDigit_of_mem_formatUnsigned h)

theorem toIp_eq (a : InetAddress) : a.toIp = a.dotted := by
  have hlength := a.length_dotted_le
  have hclean : nul ∉ a.dotted := fun h => absurd (isDigit_of_mem_dotted h) (by decide)
  rw [toIp, inet_ntop, if_pos (by omega), cStr_of_clean hclean]

/-- **What an address prints is read back.** -/
theorem inet_addr_dotted (a : InetAddress) : inet_addr a.dotted = a.s_addr := by
  have hclean : nul ∉ a.dotted := fun h => absurd (isDigit_of_mem_dotted h) (by decide)
  rw [inet_addr, cStr_of_clean hclean]
  obtain ⟨⟨p, q, r, t⟩, port⟩ := a
  have hparts : parts 3 (dotted ⟨(p, q, r, t), port⟩) =
      some [p.toNat, q.toNat, r.toNat, t.toNat] := by
    simp only [dotted, List.append_assoc, List.cons_append]
    rw [parts_dot, parts_dot, parts_dot, parts_last]
    rfl
  have ht : t.toNat ≤ 0xff := by
    have hlt := t.toNat_lt
    omega
  rw [hparts, Option.bind_some, ofParts, if_pos ht, Option.getD_some]
  simp only [UInt8.ofNat_toNat]

/-- An address is determined by its port and its printed text. -/
theorem construct_toIp (a : InetAddress) : construct a.toPort a.toIp = a := by
  obtain ⟨s_addr, sin_port⟩ := a
  rw [toIp_eq, construct, inet_addr_dotted, toPort, htons, ntohs_ntohs]

/-- The port is behind the first colon. -/
theorem toIpPort_eq (a : InetAddress) :
    a.toIpPort = .ok (a.dotted ++ ':' :: formatUnsigned a.toPort.toNat) := by
  have hdotted := a.length_dotted_le
  have hport : (formatUnsigned (Muduo.ntohs a.sin_port).toNat).length ≤ 5 :=
    length_formatUnsigned_le (by decide)
      (Nat.lt_trans (Muduo.ntohs a.sin_port).toNat_lt (by decide))
  have hbuf : a.inet_ntop 64 = a.dotted := if_pos (by omega)
  rw [toIpPort, hbuf, List.length_cons, if_pos (by omega), toPort]

theorem takeWhile_dotted (a : InetAddress) (text : List Char) :
    (a.dotted ++ ':' :: text).takeWhile (· ≠ ':') = a.dotted := by
  have hdotted : ∀ c ∈ a.dotted, decide (c ≠ ':') = true := by
    intro c hc
    rw [decide_eq_true_eq]
    rintro rfl
    exact absurd (isDigit_of_mem_dotted hc) (by decide)
  rw [List.takeWhile_append_of_pos hdotted, List.takeWhile_cons_of_neg (by simp), List.append_nil]

theorem toIpPort_injective {a b : InetAddress} (h : a.toIpPort = b.toIpPort) : a = b := by
  rw [toIpPort_eq, toIpPort_eq] at h
  have htext := Except.ok.inj h
  have hdotted : a.dotted = b.dotted := by
    calc
      a.dotted = (a.dotted ++ ':' :: formatUnsigned a.toPort.toNat).takeWhile (· ≠ ':') :=
        (takeWhile_dotted a _).symm
      _ = (b.dotted ++ ':' :: formatUnsigned b.toPort.toNat).takeWhile (· ≠ ':') := by rw [htext]
      _ = b.dotted := takeWhile_dotted b _
  rw [hdotted] at htext
  have hport := formatUnsigned_inj.1 (List.cons.inj (List.append_cancel_left htext)).2
  calc
    a = construct a.toPort a.toIp := (construct_toIp a).symm
    _ = construct b.toPort b.toIp := by
      rw [UInt16.toNat_inj.1 hport, toIp_eq, toIp_eq, hdotted]
    _ = b := construct_toIp b

/-- **Addresses and their texts**: an address is made again from its port and from what `toIp`
prints; one that is made from a text prints this text just when it is four decimal numbers with dots
between them, without leading zeros; and no two addresses have one `toIpPort`. -/
theorem roundTrip :
    (∀ a : InetAddress, construct a.toPort a.toIp = a) ∧
    (∀ port ip, (construct port ip).toPort = port ∧
      ((construct port ip).toIp = ip ↔ Dotted ip)) ∧
    ∀ a b : InetAddress, a.toIpPort = b.toIpPort → a = b := by
  refine ⟨construct_toIp, fun port ip => ⟨ntohs_ntohs port, fun h => ?_, ?_⟩,
    fun a b => toIpPort_injective⟩
  · rw [toIp_eq] at h
    exact ⟨_, _, _, _, h.symm⟩
  · rintro ⟨p, q, r, t, rfl⟩
    have hread : inet_addr (dotted ⟨(p, q, r, t), 0⟩) = (p, q, r, t) :=
      inet_addr_dotted ⟨(p, q, r, t), 0⟩
    rw [toIp_eq]
    show dotted ⟨inet_addr (dotted ⟨(p, q, r, t), 0⟩), htons port⟩ = _
    rw [hread]
    rfl

example : (construct 8000 "0x7f.1".toList).toIpPort = .ok "127.0.0.1:8000".toList := by
  decide +kernel

example : (construct 8000 "localhost".toList).toIpPort = .ok "255.255.255.255:8000".toList := by
  decide +kernel

end InetAddress

end Muduo
