-- SUMMARY: Which texts `ipaddress.ip_address` accepts: IPv4 addresses, and IPv6 addresses with or without a scope.
import LocalRag.Base.PyText

/-! # IP addresses -/

namespace LocalRag.IpAddress

open PyText

/-- `IPv4Address._parse_octet` accepts the text. -/
def isOctet (t : Text) : Bool :=
  t ≠ [] && t.all Char.isDigit && t.length ≤ 3 && (t = ['0'] || t.head? ≠ some '0') &&
  Nat.ofDigitChars 10 t 0 ≤ 255

def isIpv4 (t : Text) : Bool :=
  let octets := split ['.'] t
  t ≠ [] && !t.contains '/' && octets.length = 4 && octets.all isOctet

/-- `IPv6Address._parse_hextet` accepts the text. -/
def isHextet (t : Text) : Bool :=
  let isHexDigit (c : Char) := c.isDigit || ('a' ≤ c && c ≤ 'f') || ('A' ≤ c && c ≤ 'F')
  t ≠ [] && t.all isHexDigit && t.length ≤ 4

/-- The parts between the colons, with an IPv4 suffix as two hextets, if there is a valid one. -/
def hextets (t : Text) : Option (List Text) :=
  let parts := split [':'] t
  let last := parts.getLastD []
  if parts.length < 3 then none
  else if ¬ last.contains '.' then some parts
  else if isIpv4 last then some (parts.dropLast ++ [['0'], ['0']]) else none

/-- The parts before and after a `::` make an address. An empty endpoint must belong to the `::`. -/
def skipsWell (before after : List Text) : Bool :=
  let hi := if before.head? = some [] then before.drop 1 else before
  let lo := if after.getLast? = some [] then after.dropLast else after
  (before.head? = some [] → hi = []) && (after.getLast? = some [] → lo = []) &&
  hi.length + lo.length < 8 && hi.all isHextet && lo.all isHextet

/-- `IPv6Address._ip_int_from_string` accepts the text. -/
def isIpv6Number (t : Text) : Bool :=
  match hextets t with
  | none => false
  | some parts =>
    if parts.length > 9 then false
    else
      -- The positions of a `::`, the endpoints apart.
      let skips := (List.range parts.length).filter fun i =>
        1 ≤ i && i + 1 < parts.length && parts.getD i [] = []
      match skips with
      | [] => parts.length = 8 && parts.all isHextet
      | [i] => skipsWell (parts.take i) (parts.drop (i + 1))
      | _ => false

/-- The address without its scope, if the scope is well formed. -/
def splitScope (t : Text) : Option Text :=
  if ¬ t.contains '%' then some t
  else
    let scope := (t.dropWhile (· ≠ '%')).drop 1
    if scope = [] || scope.contains '%' then none else some (t.takeWhile (· ≠ '%'))

def isIpv6 (t : Text) : Bool :=
  !t.contains '/' && (splitScope t).any fun address => address ≠ [] && isIpv6Number address

/-- `ipaddress.ip_address` accepts the text. -/
def isIpAddress (t : Text) : Bool := isIpv4 t || isIpv6 t

example : ["::".toList, "::1".toList, "1::".toList, "fe80::1%eth0".toList, "::ffff:10.0.0.1".toList,
    "1:2:3:4:5:6:7:8".toList, "203.0.113.9".toList].all isIpAddress = true := by decide

example : ["".toList, ":".toList, ":::".toList, "1::2::3".toList, "1:2:3:4:5:6:7:8:9".toList, "01.2.3.4".toList,
    "1.2.3.256".toList, "1.2.3".toList, "fe80::1%".toList, "1:2:3:4:5:6:7:8::".toList].any isIpAddress = false := by
  decide

end LocalRag.IpAddress
