import ModuleSystem.Text.Affix
import ModuleSystem.Url.Percent

/-!
# Hosts

A host of a special scheme is a domain name, an IPv4 address or an IPv6 address in brackets; each
has one written form, which is what this file produces. Domain names are ASCII here: they are
lower-cased, and a forbidden character refuses the name. A host of another scheme is opaque: it
is kept as it stands, with its control characters escaped.
-/

namespace ModuleSystem

/-- Why a text is not a URL. -/
inductive UrlError where
  | emptyHost
  | invalidDomain
  | invalidPort
  | invalidIpv4
  | invalidIpv6
  | invalidHostCharacter
  | relativeWithoutBase
  | relativeToOpaque
deriving DecidableEq, Repr

/-- The reason in words. -/
def UrlError.message : UrlError → String
  | emptyHost => "empty host"
  | invalidDomain => "invalid international domain name"
  | invalidPort => "invalid port number"
  | invalidIpv4 => "invalid IPv4 address"
  | invalidIpv6 => "invalid IPv6 address"
  | invalidHostCharacter => "invalid domain character"
  | relativeWithoutBase => "relative URL without a base"
  | relativeToOpaque => "relative URL with a cannot-be-a-base base"

namespace Url.Host

/-! ### Numbers and IPv4 addresses -/

/-- The value of a digit string in a base, or nothing when a character is no digit of it. -/
def valueIn (base : Nat) (digits : List Char) : Option Nat :=
  digits.foldlM
    (fun n c => (hexValue? c).bind fun d => if d < base then some (base * n + d) else none) 0

/-- The number of one part of an IPv4 address: decimal, octal after `0`, hexadecimal after `0x`. -/
def ipv4Number? (part : List Char) : Option Nat :=
  match part with
  | [] => none
  | '0' :: 'x' :: digits => valueIn 16 digits
  | '0' :: 'X' :: digits => valueIn 16 digits
  | '0' :: d :: digits => valueIn 8 (d :: digits)
  | digits => valueIn 10 digits

/-- The parts of a dotted name; a final dot adds none. -/
def dottedParts (name : List Char) : List (List Char) :=
  let parts := Text.fields (· == '.') name
  if parts.length > 1 && parts.getLast? == some [] then parts.dropLast else parts

/-- Whether the last part of a domain name is a number, so that the name has to be an address. -/
def endsInNumber (name : List Char) : Bool :=
  match (dottedParts name).getLast? with
  | none => false
  | some last =>
    (!last.isEmpty && last.all Char.isDigit) || (ipv4Number? last).isSome

/-- The value of an IPv4 address of one to four parts, the last of which fills what is left. -/
def ipv4Value? (name : List Char) : Option Nat := do
  let parts := dottedParts name
  if parts.length > 4 then none
  let numbers ← parts.mapM ipv4Number?
  let last ← numbers.getLast?
  let heads := numbers.dropLast
  if heads.any (· > 255) || last ≥ Nat.pow 256 (4 - heads.length) then none
  some (heads.foldl (fun n part => 256 * n + part) 0 * Nat.pow 256 (4 - heads.length) + last)

/-- An IPv4 address as four decimal numbers. -/
def ipv4Text (value : Nat) : List Char :=
  Text.join ['.']
    ([value / Nat.pow 256 3, value / Nat.pow 256 2 % 256, value / 256 % 256, value % 256].map
      fun n => (toString n).toList)

/-! ### IPv6 addresses -/

/-- One decimal byte of the dotted end of an IPv6 address: no leading zero, at most 255. -/
def decimalByte? (digits : List Char) : Option Nat :=
  if digits.isEmpty || !digits.all Char.isDigit then none
  else if digits.length > 1 && digits.head? == some '0' then none
  else (valueIn 10 digits).filter (· ≤ 255)

/-- The two pieces of the dotted end of an IPv6 address. -/
def dottedPieces? (s : List Char) : Option (List Nat) := do
  match ← (Text.fields (· == '.') s).mapM decimalByte? with
  | [a, b, c, d] => some [256 * a + b, 256 * c + d]
  | _ => none

/-- The pieces of an IPv6 address after the ones in `pieces`. `gap` tells how many pieces stand
before the end of a double colon, which itself counts as one zero piece. -/
def ipv6Pieces? (pieces : List Nat) (gap : Option Nat) (s : List Char) :
    Option (List Nat × Option Nat) :=
  match s with
  | [] => some (pieces, gap)
  | c :: rest =>
    if pieces.length == 8 then none
    else if c == ':' then
      if gap.isSome then none
      else ipv6Pieces? (pieces ++ [0]) (some (pieces.length + 1)) rest
    else
      let digits := ((c :: rest).take 4).takeWhile fun d => (hexValue? d).isSome
      match h : (c :: rest).drop digits.length with
      | [] => (valueIn 16 digits).map fun n => (pieces ++ [n], gap)
      | '.' :: _ =>
        if digits.isEmpty || pieces.length > 6 then none
        else (dottedPieces? (c :: rest)).map fun tail => (pieces ++ tail, gap)
      | ':' :: next =>
        if next.isEmpty then none
        else (valueIn 16 digits).bind fun n => ipv6Pieces? (pieces ++ [n]) gap next
      | _ :: _ => none
termination_by s.length
decreasing_by
  · simp
  · have hlen := congrArg List.length h
    simp only [List.length_drop, List.length_cons] at hlen ⊢
    omega

/-- The eight pieces of an IPv6 address. -/
def ipv6Value? (s : List Char) : Option (List Nat) := do
  let (pieces, gap) ←
    match s with
    | ':' :: ':' :: rest => ipv6Pieces? [0] (some 1) rest
    | ':' :: _ => none
    | [] => none
    | [_] => none
    | _ => ipv6Pieces? [] none s
  match gap with
  | some n => some (pieces.take n ++ List.replicate (8 - pieces.length) 0 ++ pieces.drop n)
  | none => if pieces.length == 8 then some pieces else none

/-- Where the first longest run of zero pieces starts, and its length. -/
def longestZeroRun (pieces : List Nat) : Nat × Nat :=
  (List.range pieces.length).foldl
    (fun best i =>
      let run := ((pieces.drop i).takeWhile (· == 0)).length
      if run > best.2 then (i, run) else best)
    (0, 0)

/-- An IPv6 address in lower-case hexadecimal, its first longest run of two or more zero pieces
written as a double colon. -/
def ipv6Text (pieces : List Nat) : List Char :=
  let (start, run) := longestZeroRun pieces
  let colons (ps : List Nat) := Text.join [':'] (ps.map hexDigits)
  if run < 2 then colons pieces
  else colons (pieces.take start) ++ [':', ':'] ++ colons (pieces.drop (start + run))

/-- The address between a bracket and the end of a host, in its written form. -/
def bracketed (s : List Char) : Except UrlError (List Char) :=
  if s.getLast? != some ']' then .error .invalidIpv6
  else
    match ipv6Value? s.dropLast with
    | some pieces => .ok ('[' :: ipv6Text pieces ++ [']'])
    | none => .error .invalidIpv6

/-! ### Domains and opaque hosts -/

/-- The characters that no domain name holds. -/
def forbiddenInDomain (c : Char) : Bool :=
  c.toNat ≤ 0x20 || 0x7f ≤ c.toNat
    || ['%', '#', '/', ':', '<', '>', '?', '@', '[', '\\', ']', '^', '|'].contains c

/-- The written form of the host of a special scheme. -/
def parse (s : List Char) : Except UrlError (List Char) :=
  match s with
  | '[' :: rest => bracketed rest
  | _ =>
    let name := (percentDecode s).map fun b => (Char.ofNat b.toNat).toLower
    if name.any forbiddenInDomain then .error .invalidDomain
    else if name.isEmpty then .error .emptyHost
    else if endsInNumber name then
      match ipv4Value? name with
      | some value => .ok (ipv4Text value)
      | none => .error .invalidIpv4
    else .ok name

/-- The characters that no opaque host holds. -/
def forbiddenInOpaque (c : Char) : Bool :=
  ['\x00', '\t', '\n', '\r', ' ', '#', '/', ':', '<', '>', '?', '@', '[', '\\', ']', '^',
    '|'].contains c

/-- The written form of the host of a scheme that is not special. -/
def parseOpaque (s : List Char) : Except UrlError (List Char) :=
  match s with
  | '[' :: rest => bracketed rest
  | _ =>
    if s.any forbiddenInOpaque then .error .invalidHostCharacter
    else .ok (percentEncode isControl s)

end Url.Host

end ModuleSystem
