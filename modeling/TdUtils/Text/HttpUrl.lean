import Mathlib.Data.List.DropRight
import TdUtils.Text.Misc

/-!
# Text.HttpUrl — what `parse_url` reads is what `get_url` writes

The authority part is split at its last colon, if no `]` or `@` comes behind it, and at its last `@`.
A host that is accepted contains none of the characters that delimit the parts, so the split of a printed
URL is the split it was printed from: `Printable` says what is known of every URL that was parsed, and a
printable URL is read back.  Whether an address in brackets is one of IPv6 is decided elsewhere; no such
URL is accepted, as `[` is not allowed in a host.
-/

namespace TdUtils.Text

open Lib Bytes

inductive Protocol
  | http
  | https
  deriving DecidableEq

structure HttpUrl where
  protocol : Protocol
  userinfo : List UInt8
  host : List UInt8
  isIpv6 : Bool
  specifiedPort : ℤ
  port : ℤ
  query : List UInt8
  deriving DecidableEq

namespace HttpUrl

/-- The prefix of a protocol. -/
def scheme : Protocol → List UInt8
  | .http => chs ['h', 't', 't', 'p', ':', '/', '/']
  | .https => chs ['h', 't', 't', 'p', 's', ':', '/', '/']

/-- The part of a URL between the scheme and the query. -/
def authority (url : HttpUrl) : List UInt8 :=
  (if url.userinfo ≠ [] then url.userinfo ++ [ch '@'] else []) ++ url.host ++
    if 0 < url.specifiedPort then ch ':' :: toDecimal url.specifiedPort.toNat else []

/-- `get_url`; `none` is the failed `LOG_CHECK`. -/
def getUrl (url : HttpUrl) : Option (List UInt8) :=
  if url.query.head? = some (ch '/') then some (scheme url.protocol ++ url.authority ++ url.query)
  else none

/-- `read_till_nofail` of a parser at `s`: what is read, and what is left. -/
def readTill (str s : List UInt8) : List UInt8 × List UInt8 :=
  (s.takeWhile fun c => c ∉ str, s.dropWhile fun c => c ∉ str)

/-- `try_skip` of a parser at `s`, if it succeeds. -/
def trySkip (pre s : List UInt8) : Option (List UInt8) :=
  if pre.isPrefixOf s then some (s.drop pre.length) else none

def isColonStop (c : UInt8) : Bool := c = ch ':' ∨ c = ch ']' ∨ c = ch '@'

/-- The loop that moves `colon` to the front, from the position `i`. -/
def colonFrom (s : List UInt8) : ℕ → ℕ
  | 0 => 0
  | i + 1 => if (s[i + 1]?.any isColonStop) then i + 1 else colonFrom s i

/-- The authority part without its port, and the port. -/
def splitPort (s : List UInt8) : List UInt8 × ℤ :=
  let colon := colonFrom s (s.length - 1)
  if 0 < colon ∧ s[colon]? = some (ch ':') then (s.take colon, toInteger (s.drop (colon + 1)))
  else (s, 0)

/-- The loop of `Slice::rfind`, from the position `pos` on. -/
def rfind (s : List UInt8) (c : UInt8) : ℕ → Option ℕ
  | 0 => none
  | pos + 1 => if s[pos]? = some c then some pos else rfind s c pos

/-- The userinfo and the host. -/
def splitUserinfo (s : List UInt8) : List UInt8 × List UInt8 :=
  match rfind s (ch '@') s.length with
  | none => ([], s)
  | some pos => (s.take pos, s.drop (pos + 1))

def isHexDigit (c : UInt8) : Bool := (ch 'a' ≤ c ∧ c ≤ ch 'f') ∨ (ch '0' ≤ c ∧ c ≤ ch '9')

/-- The symbols of a host of IPv6. -/
def isIpv6Char (c : UInt8) : Bool := c = ch ':' ∨ isHexDigit c ∨ c = ch '.'

/-- The symbols that are allowed by themselves. -/
def isHostChar (c : UInt8) : Bool :=
  (ch 'a' ≤ c ∧ c ≤ ch 'z') ∨ (ch '0' ≤ c ∧ c ≤ ch '9') ∨
    c ∈ chs ['.', '-', '_', '!', '$', ',', '~', '*', '\'', '(', ')', ';', '&', '+', '=']

/-- The loop over the host; the error it ends with, if any. -/
def checkHost : List UInt8 → Except String Unit
  | [] => .ok ()
  | c :: rest =>
    if isHostChar c then checkHost rest
    else if c = ch '%' then
      match rest with
      | a :: b :: rest =>
        if isHexDigit a ∧ isHexDigit b then checkHost rest
        else .error "Wrong percent-encoded symbol in URL host"
      | _ => .error "Wrong percent-encoded symbol in URL host"  -- the terminating zero is read
    else if 128 ≤ c then checkHost rest
    else .error "Wrong URL host"

def checkIpv6Host (host : List UInt8) : Except String Unit :=
  if host.all isIpv6Char then .ok () else .error "Wrong IPv6 URL host"

/-- The loop over the host, which looks at `is_ipv6`. -/
def checkAnyHost (isIpv6 : Bool) (host : List UInt8) : Except String Unit :=
  if isIpv6 then checkIpv6Host host else checkHost host

def hexDigit (n : UInt8) : UInt8 := (chs "0123456789ABCDEF".toList).getD n.toNat 0

/-- A character of the query as it is stored. -/
def encodeChar (c : UInt8) : List UInt8 :=
  if c ≤ 0x20 then [ch '%', hexDigit (c / 16), hexDigit (c % 16)] else [c]

/-- The stored query. -/
def encodeQuery (s : List UInt8) : List UInt8 :=
  let query := s.rdropWhile isSpace
  let query := if query = [] then [ch '/'] else query
  (if query.head? = some (ch '/') then [] else [ch '/']) ++ query.flatMap encodeChar

def defaultPort : Protocol → ℤ
  | .http => 80
  | .https => 443

/-- The protocol of a URL and the rest behind it. -/
def parseProtocol (url : List UInt8) (default : Protocol) : Except String (Protocol × List UInt8) :=
  let (str, rest) := readTill (chs [':', '/', '?', '#', '@', '[', ']']) url
  match trySkip (chs [':', '/', '/']) rest with
  | some rest =>
    if toLower str = chs ['h', 't', 't', 'p'] then .ok (.http, rest)
    else if toLower str = chs ['h', 't', 't', 'p', 's'] then .ok (.https, rest)
    else .error "Unsupported URL protocol"
  | none => .ok (default, url)

/-- The host as it is stored, and `is_ipv6`; `ipv6` is whether `IPAddress::init_ipv6_port` accepts. -/
def parseHost (ipv6 : List UInt8 → Bool) (host : List UInt8) : Except String Bool :=
  if host.head? = some (ch '[') ∧ host.getLast? = some (ch ']') then
    if ipv6 host then .ok true else .error "Wrong IPv6 address specified in the URL"
  else if host = [] then .error "URL host is empty"
  else if host = [ch '.'] then .error "Host is invalid"
  else .ok false

/-- `parse_url`. -/
def parseUrl (ipv6 : List UInt8 → Bool) (url : List UInt8) (default : Protocol) : Except String HttpUrl := do
  let (protocol, rest) ← parseProtocol url default
  let (userinfoHostPort, rest) := readTill (chs ['/', '?', '#']) rest
  let (userinfoHost, specifiedPort) := splitPort userinfoHostPort
  if specifiedPort < 0 ∨ 65535 < specifiedPort then
    throw "Wrong port number specified in the URL"
  let (userinfo, host) := splitUserinfo userinfoHost
  let isIpv6 ← parseHost ipv6 host
  let port := if specifiedPort = 0 then defaultPort protocol else specifiedPort
  let query := encodeQuery rest
  let host := toLower host
  checkAnyHost isIpv6 host
  pure ⟨protocol, userinfo, host, isIpv6, specifiedPort, port, query⟩

/-! ### Positions -/

variable {s pre rest : List UInt8} {c d : UInt8}

theorem readTill_append {str : List UInt8} (hpre : ∀ c ∈ pre, c ∉ str) (hd : d ∈ str) :
    readTill str (pre ++ d :: rest) = (pre, d :: rest) := by
  have hall : ∀ c ∈ pre, decide (c ∉ str) = true := fun c hc => decide_eq_true (hpre c hc)
  have hstop : ¬ (fun a : UInt8 => decide (a ∉ str)) d = true := by simpa using hd
  unfold readTill
  rw [List.takeWhile_append_of_pos hall, List.dropWhile_append_of_pos hall,
    List.takeWhile_cons_of_neg (p := fun a => decide (a ∉ str)) hstop,
    List.dropWhile_cons_of_neg (p := fun a => decide (a ∉ str)) hstop, List.append_nil]

theorem getElem?_pre (pre rest : List UInt8) (d : UInt8) : (pre ++ d :: rest)[pre.length]? = some d := by
  rw [List.getElem?_append_right le_rfl, Nat.sub_self]
  rfl

theorem drop_pre (pre rest : List UInt8) (d : UInt8) : (pre ++ d :: rest).drop (pre.length + 1) = rest := by
  rw [← List.drop_drop, List.drop_left]
  rfl

theorem getElem?_rest {k : ℕ} (hk : pre.length < k) {c : UInt8} (hc : (pre ++ d :: rest)[k]? = some c) :
    c ∈ rest := by
  obtain ⟨j, rfl⟩ : ∃ j, k = pre.length + (j + 1) := ⟨k - pre.length - 1, by omega⟩
  rw [List.getElem?_append_right (Nat.le_add_right _ _), Nat.add_sub_cancel_left, List.getElem?_cons_succ] at hc
  exact List.mem_of_getElem? hc

/-- The scan for the colon stops at the last character that stops it. -/
theorem colonFrom_eq (hd : isColonStop d = true) (hrest : ∀ c ∈ rest, isColonStop c = false) :
    ∀ i, pre.length ≤ i → colonFrom (pre ++ d :: rest) i = pre.length
  | 0, hi => (Nat.le_zero.mp hi).symm
  | i + 1, hi => by
    unfold colonFrom
    rcases Nat.lt_or_eq_of_le hi with hlt | heq
    · have hnot : ¬ ((pre ++ d :: rest)[i + 1]?.any isColonStop) = true := by
        intro hany
        cases hc : (pre ++ d :: rest)[i + 1]? with
        | none =>
          rw [hc] at hany
          cases hany
        | some c =>
          rw [hc, Option.any_some, hrest c (getElem?_rest hlt hc)] at hany
          cases hany
      rw [if_neg hnot]
      exact colonFrom_eq hd hrest i (Nat.le_of_lt_succ hlt)
    · rw [← heq, getElem?_pre, Option.any_some, if_pos hd]

theorem colonFrom_eq_zero (h : ∀ c ∈ s, isColonStop c = false) : ∀ i, colonFrom s i = 0
  | 0 => rfl
  | i + 1 => by
    have hnot : ¬ (s[i + 1]?.any isColonStop) = true := by
      intro hany
      cases hc : s[i + 1]? with
      | none =>
        rw [hc] at hany
        cases hany
      | some c =>
        rw [hc, Option.any_some, h c (List.mem_of_getElem? hc)] at hany
        cases hany
    unfold colonFrom
    rw [if_neg hnot]
    exact colonFrom_eq_zero h i

/-- What is behind the last character that stops the scan is the port, if that character is a colon. -/
theorem splitPort_append (hne : pre ≠ []) (hrest : ∀ c ∈ rest, isColonStop c = false) :
    splitPort (pre ++ ch ':' :: rest) = (pre, toInteger rest) := by
  have hscan : colonFrom (pre ++ ch ':' :: rest) ((pre ++ ch ':' :: rest).length - 1) = pre.length := by
    refine colonFrom_eq rfl hrest _ ?_
    rw [List.length_append, List.length_cons]
    omega
  unfold splitPort
  dsimp only
  rw [hscan, if_pos ⟨List.length_pos_iff.mpr hne, getElem?_pre _ _ _⟩, List.take_left, drop_pre]

theorem rfind_eq (hrest : c ∉ rest) : ∀ pos, pre.length < pos →
    rfind (pre ++ c :: rest) c pos = some pre.length
  | pos + 1, hpos => by
    unfold rfind
    rcases Nat.lt_or_eq_of_le (Nat.le_of_lt_succ hpos) with hlt | heq
    · rw [if_neg fun hc => hrest (getElem?_rest hlt hc)]
      exact rfind_eq hrest pos hlt
    · rw [← heq, getElem?_pre, if_pos rfl]

theorem rfind_eq_none (h : c ∉ s) : ∀ pos, rfind s c pos = none
  | 0 => rfl
  | pos + 1 => by
    unfold rfind
    rw [if_neg fun hc => h (List.mem_of_getElem? hc)]
    exact rfind_eq_none h pos

/-! ### Hosts -/

/-- The characters that delimit the parts of a URL. -/
def delimiters : List UInt8 := chs [':', '/', '?', '#', '@', '[', ']']

theorem delimiters_kinds : ∀ d ∈ delimiters, isHostChar d = false ∧ isHexDigit d = false ∧ isDigit d = false ∧
    d < 128 ∧ ¬ (ch 'a' ≤ d ∧ d ≤ ch 'z') := by decide

theorem isHostChar_not_delimiter (c : UInt8) (h : isHostChar c = true) : c ∉ delimiters := fun hc =>
  Bool.false_ne_true ((delimiters_kinds c hc).1.symm.trans h)

theorem isHexDigit_not_delimiter (c : UInt8) (h : isHexDigit c = true) : c ∉ delimiters := fun hc =>
  Bool.false_ne_true ((delimiters_kinds c hc).2.1.symm.trans h)

theorem high_not_delimiter (c : UInt8) (h : 128 ≤ c) : c ∉ delimiters := fun hc =>
  UInt8.not_le.mpr (delimiters_kinds c hc).2.2.2.1 h

/-- A host that is accepted has no delimiters. -/
theorem checkHost_not_delimiter : ∀ {host : List UInt8}, checkHost host = .ok () →
    ∀ c ∈ host, c ∉ delimiters := by
  intro host
  induction host using checkHost.induct with
  | case1 => exact fun _ _ hc => absurd hc List.not_mem_nil
  | case2 c rest hchar ih =>
    intro h
    unfold checkHost at h
    rw [if_pos hchar] at h
    exact List.forall_mem_cons.mpr ⟨isHostChar_not_delimiter c hchar, ih h⟩
  | case3 a b rest hhex hchar ih =>
    intro h
    unfold checkHost at h
    rw [if_neg hchar, if_pos rfl] at h
    dsimp only at h
    rw [if_pos hhex] at h
    refine List.forall_mem_cons.mpr ⟨by decide, ?_⟩
    refine List.forall_mem_cons.mpr ⟨isHexDigit_not_delimiter a hhex.1, ?_⟩
    exact List.forall_mem_cons.mpr ⟨isHexDigit_not_delimiter b hhex.2, ih h⟩
  | case4 a b rest hhex hchar =>
    intro h
    unfold checkHost at h
    rw [if_neg hchar, if_pos rfl] at h
    dsimp only at h
    rw [if_neg hhex] at h
    cases h
  | case5 rest hshort hchar =>
    intro h
    unfold checkHost at h
    rw [if_neg hchar, if_pos rfl] at h
    split at h
    · exact absurd rfl (hshort _ _ _)
    · cases h
  | case6 c rest hchar hpercent hhigh ih =>
    intro h
    unfold checkHost at h
    rw [if_neg hchar, if_neg hpercent, if_pos hhigh] at h
    exact List.forall_mem_cons.mpr ⟨high_not_delimiter c hhigh, ih h⟩
  | case7 c rest hchar hpercent hhigh =>
    intro h
    unfold checkHost at h
    rw [if_neg hchar, if_neg hpercent, if_neg hhigh] at h
    cases h

/-! ### Queries -/

theorem encodeChar_gt : ∀ c, ∀ x ∈ encodeChar c, 0x20 < x := by
  apply forall_of_fin
  decide +kernel

theorem isSpace_le (c : UInt8) (h : isSpace c = true) : c ≤ 0x20 := by
  rcases of_decide_eq_true h with rfl | rfl | rfl | rfl | rfl | rfl <;> decide

theorem encodeQuery_gt (s : List UInt8) : ∀ x ∈ encodeQuery s, 0x20 < x := by
  intro x hx
  unfold encodeQuery at hx
  dsimp only at hx
  generalize (if s.rdropWhile isSpace = [] then [ch '/'] else s.rdropWhile isSpace) = query at hx
  rcases List.mem_append.mp hx with hx | hx
  · split_ifs at hx
    · cases hx
    · rw [List.mem_singleton.mp hx]
      decide
  · obtain ⟨c, -, hc⟩ := List.mem_flatMap.mp hx
    exact encodeChar_gt c x hc

theorem encodeQuery_head (s : List UInt8) : (encodeQuery s).head? = some (ch '/') := by
  unfold encodeQuery
  dsimp only
  generalize (if s.rdropWhile isSpace = [] then [ch '/'] else s.rdropWhile isSpace) = query
  split_ifs with hhead
  · obtain ⟨tail, rfl⟩ := List.head?_eq_some_iff.mp hhead
    rfl
  · rfl

/-- A stored query is stored as it is. -/
theorem encodeQuery_eq_self (hhead : s.head? = some (ch '/')) (hgt : ∀ c ∈ s, 0x20 < c) :
    encodeQuery s = s := by
  have htrim : s.rdropWhile isSpace = s := by
    rw [List.rdropWhile_eq_self_iff]
    intro hne hspace
    exact absurd (isSpace_le _ hspace) (UInt8.not_le.mpr (hgt _ (List.getLast_mem hne)))
  have hne : s ≠ [] := fun hnil => by
    rw [hnil] at hhead
    cases hhead
  have hflat : s.flatMap encodeChar = s := by
    have hmap : ∀ c ∈ s, encodeChar c = [c] := fun c hc => if_neg (UInt8.not_le.mpr (hgt c hc))
    rw [List.flatMap_congr hmap]
    exact List.flatMap_singleton' s
  unfold encodeQuery
  dsimp only
  rw [htrim, if_neg hne, if_pos hhead, hflat, List.nil_append]

/-! ### Parsing -/

/-- The parts that the authority `s` is split into: userinfo, host and port. -/
def parts (s : List UInt8) : List UInt8 × List UInt8 × ℤ :=
  ((splitUserinfo (splitPort s).1).1, (splitUserinfo (splitPort s).1).2, (splitPort s).2)

/-- What `parse_url` does when nothing is wrong. -/
theorem parseUrl_eq_ok_iff {ipv6 : List UInt8 → Bool} {url : List UInt8} {default : Protocol} {u : HttpUrl} :
    parseUrl ipv6 url default = .ok u ↔ ∃ protocol start authority rest userinfo host specifiedPort isIpv6,
      parseProtocol url default = .ok (protocol, start) ∧
      readTill (chs ['/', '?', '#']) start = (authority, rest) ∧
      parts authority = (userinfo, host, specifiedPort) ∧ 0 ≤ specifiedPort ∧ specifiedPort ≤ 65535 ∧
      parseHost ipv6 host = .ok isIpv6 ∧ checkAnyHost isIpv6 (toLower host) = .ok () ∧
      u = ⟨protocol, userinfo, toLower host, isIpv6, specifiedPort,
        if specifiedPort = 0 then defaultPort protocol else specifiedPort, encodeQuery rest⟩ := by
  unfold parseUrl parts
  constructor
  · intro h
    cases hprotocol : parseProtocol url default with
    | error e =>
      rw [hprotocol] at h
      cases h
    | ok r =>
      obtain ⟨protocol, start⟩ := r
      rw [hprotocol] at h
      simp only [bind, Except.bind] at h
      split at h
      · cases h
      · rename_i hport
        rw [not_or, not_lt, not_lt] at hport
        split at h
        · cases h
        · rename_i isIpv6 hhost
          split at h
          · cases h
          · rename_i hcheck
            cases h
            exact ⟨protocol, start, _, _, _, _, _, isIpv6, rfl, rfl, rfl, hport.1, hport.2, hhost, hcheck, rfl⟩
  · rintro ⟨protocol, start, authority, rest, userinfo, host, specifiedPort, isIpv6, hprotocol, hread, hparts, hlow,
      hhigh, hhost, hcheck, rfl⟩
    obtain ⟨rfl, hrest⟩ := Prod.mk.inj hparts
    obtain ⟨rfl, rfl⟩ := Prod.mk.inj hrest
    have hport : ¬ ((splitPort authority).2 < 0 ∨ 65535 < (splitPort authority).2) := by
      rw [not_or, not_lt, not_lt]
      exact ⟨hlow, hhigh⟩
    rw [hprotocol]
    simp only [bind, Except.bind]
    rw [hread]
    dsimp only
    rw [if_neg hport, hhost]
    dsimp only
    rw [hcheck]
    rfl

/-! ### What is known of a URL that was parsed -/

structure Printable (u : HttpUrl) : Prop where
  userinfo : ∀ c ∈ u.userinfo, c ∉ chs ['/', '?', '#']
  host : checkHost u.host = .ok ()
  lower : toLower u.host = u.host
  ne_nil : u.host ≠ []
  ne_dot : u.host ≠ [ch '.']
  isIpv6 : u.isIpv6 = false
  nonneg : 0 ≤ u.specifiedPort
  le : u.specifiedPort ≤ 65535
  port : u.port = if u.specifiedPort = 0 then defaultPort u.protocol else u.specifiedPort
  query_head : u.query.head? = some (ch '/')
  query_gt : ∀ c ∈ u.query, 0x20 < c

theorem mem_splitPort {s : List UInt8} {c : UInt8} (h : c ∈ (splitPort s).1) : c ∈ s := by
  unfold splitPort at h
  dsimp only at h
  split_ifs at h
  · exact List.mem_of_mem_take h
  · exact h

theorem mem_splitUserinfo {s : List UInt8} {c : UInt8} (h : c ∈ (splitUserinfo s).1) : c ∈ s := by
  unfold splitUserinfo at h
  split at h
  · exact absurd h List.not_mem_nil
  · exact List.mem_of_mem_take h

/-- A host in brackets is not accepted, whether or not it is an address. -/
theorem isIpv6_eq_false {ipv6 : List UInt8 → Bool} {host : List UInt8} {isIpv6 : Bool}
    (hhost : parseHost ipv6 host = .ok isIpv6) (hcheck : checkAnyHost isIpv6 (toLower host) = .ok ()) :
    isIpv6 = false := by
  unfold parseHost at hhost
  split_ifs at hhost with hbracket
  · obtain rfl := Except.ok.inj hhost
    obtain ⟨tail, rfl⟩ := List.head?_eq_some_iff.mp hbracket.1
    unfold checkAnyHost checkIpv6Host at hcheck
    have hfirst : ¬ ((toLower (ch '[' :: tail)).all isIpv6Char) = true := by
      intro hall
      exact absurd (List.all_eq_true.mp hall (ch '[') List.mem_cons_self) (by decide)
    rw [if_pos rfl, if_neg hfirst] at hcheck
    cases hcheck
  · exact (Except.ok.inj hhost).symm

theorem parseHost_ne {ipv6 : List UInt8 → Bool} {host : List UInt8} (h : parseHost ipv6 host = .ok false) :
    host ≠ [] ∧ host ≠ [ch '.'] := by
  unfold parseHost at h
  by_cases hbracket : host.head? = some (ch '[') ∧ host.getLast? = some (ch ']')
  · rw [if_pos hbracket] at h
    split_ifs at h
    cases h
  · rw [if_neg hbracket] at h
    split_ifs at h with hnil hdot
    exact ⟨hnil, hdot⟩

theorem printable_of_parseUrl {ipv6 : List UInt8 → Bool} {url : List UInt8} {default : Protocol} {u : HttpUrl}
    (h : parseUrl ipv6 url default = .ok u) : Printable u := by
  obtain ⟨protocol, start, authority, rest, userinfo, host, specifiedPort, isIpv6, -, hread, hparts, hlow, hhigh,
    hhost, hcheck, rfl⟩ := parseUrl_eq_ok_iff.mp h
  obtain rfl := isIpv6_eq_false hhost hcheck
  obtain ⟨hne, hdot⟩ := parseHost_ne hhost
  refine ⟨?_, hcheck, toLower_idem host, ?_, ?_, rfl, hlow, hhigh, rfl, encodeQuery_head rest, encodeQuery_gt rest⟩
  · intro c hc
    have huserinfo : userinfo = (splitUserinfo (splitPort authority).1).1 := (congrArg Prod.fst hparts).symm
    have hauthority : authority = start.takeWhile fun c => c ∉ chs ['/', '?', '#'] :=
      (congrArg Prod.fst hread).symm
    change c ∈ userinfo at hc
    rw [huserinfo] at hc
    have hmem := mem_splitPort (mem_splitUserinfo hc)
    rw [hauthority] at hmem
    simpa using List.mem_takeWhile_imp hmem
  · intro hnil
    exact hne (List.map_eq_nil_iff.mp hnil)
  · intro heq
    obtain ⟨c, rfl, hc⟩ := List.map_eq_singleton_iff.mp heq
    exact hdot (by rw [eq_of_toLowerChar hc (by decide)])

/-! ### Printing and parsing again -/

theorem not_mem_of_delimiter {host : List UInt8} (h : checkHost host = .ok ()) {d : UInt8}
    (hd : d ∈ delimiters) : d ∉ host := fun hmem => checkHost_not_delimiter h d hmem hd

theorem isColonStop_delimiter (c : UInt8) (h : isColonStop c = true) : c ∈ delimiters := by
  rcases of_decide_eq_true h with rfl | rfl | rfl <;> decide

theorem not_isColonStop {host : List UInt8} (h : checkHost host = .ok ()) :
    ∀ c ∈ host, isColonStop c = false := by
  intro c hc
  rw [← Bool.not_eq_true]
  exact fun hstop => checkHost_not_delimiter h c hc (isColonStop_delimiter c hstop)

theorem delimiter_authority : ∀ c ∈ chs ['/', '?', '#'], c ∈ delimiters := by decide

theorem isDigit_not_delimiter (c : UInt8) (h : isDigit c = true) : c ∉ delimiters := fun hc =>
  Bool.false_ne_true ((delimiters_kinds c hc).2.2.1.symm.trans h)

theorem isDigit_not_isColonStop (c : UInt8) (h : isDigit c = true) : isColonStop c = false :=
  Bool.eq_false_iff.mpr fun hstop => isDigit_not_delimiter c h (isColonStop_delimiter c hstop)

namespace Printable

variable {u : HttpUrl}

/-- Nothing in the authority part ends it. -/
theorem authority_not_mem (h : Printable u) : ∀ c ∈ u.authority, c ∉ chs ['/', '?', '#'] := by
  intro c hc
  unfold authority at hc
  rcases List.mem_append.mp hc with hc | hc
  · rcases List.mem_append.mp hc with hc | hc
    · split_ifs at hc
      · rcases List.mem_append.mp hc with hc | hc
        · exact h.userinfo c hc
        · rw [List.mem_singleton.mp hc]
          decide
      · cases hc
    · exact fun hmem => checkHost_not_delimiter h.host c hc (delimiter_authority c hmem)
  · split_ifs at hc
    · rcases List.mem_cons.mp hc with rfl | hc
      · decide
      · exact fun hmem => isDigit_not_delimiter c (toDecimal_isDigit _ c hc) (delimiter_authority c hmem)
    · cases hc

/-- The userinfo and the host as they are printed. -/
def front (u : HttpUrl) : List UInt8 :=
  (if u.userinfo ≠ [] then u.userinfo ++ [ch '@'] else []) ++ u.host

theorem front_of_ne {u : HttpUrl} (h : u.userinfo ≠ []) : front u = u.userinfo ++ ch '@' :: u.host := by
  unfold front
  rw [if_pos h, List.append_assoc]
  rfl

theorem front_of_nil {u : HttpUrl} (h : u.userinfo = []) : front u = u.host := by
  unfold front
  rw [if_neg (not_not.mpr h), List.nil_append]

theorem splitUserinfo_front (h : Printable u) : splitUserinfo (front u) = (u.userinfo, u.host) := by
  have hat : ch '@' ∉ u.host := not_mem_of_delimiter h.host (by decide)
  unfold splitUserinfo
  by_cases huserinfo : u.userinfo = []
  · rw [front_of_nil huserinfo, rfind_eq_none hat, huserinfo]
  · have hlen : u.userinfo.length < (u.userinfo ++ ch '@' :: u.host).length := by
      rw [List.length_append, List.length_cons]
      omega
    rw [front_of_ne huserinfo, rfind_eq hat _ hlen]
    dsimp only
    rw [List.take_left, drop_pre]

/-- Without a port the scan finds no colon that counts. -/
theorem splitPort_front (h : Printable u) : splitPort (front u) = (front u, 0) := by
  have hhost := not_isColonStop h.host
  unfold splitPort
  refine if_neg ?_
  rintro ⟨hpos, hcolon⟩
  by_cases huserinfo : u.userinfo = []
  · rw [front_of_nil huserinfo, colonFrom_eq_zero hhost] at hpos
    exact absurd hpos (lt_irrefl 0)
  · have hscan : colonFrom (front u) ((front u).length - 1) = u.userinfo.length := by
      rw [front_of_ne huserinfo]
      refine colonFrom_eq rfl hhost _ ?_
      rw [List.length_append, List.length_cons]
      omega
    rw [hscan, front_of_ne huserinfo, getElem?_pre] at hcolon
    exact absurd hcolon (by decide)

theorem splitPort_authority (h : Printable u) : splitPort u.authority = (front u, u.specifiedPort) := by
  have hnonneg := h.nonneg
  have hle := h.le
  have hauthority : u.authority =
      front u ++ if 0 < u.specifiedPort then ch ':' :: toDecimal u.specifiedPort.toNat else [] := rfl
  rw [hauthority]
  split_ifs with hport
  · have hne : front u ≠ [] := by
      unfold front
      exact List.append_ne_nil_of_right_ne_nil _ h.ne_nil
    have hvalue : toInteger (toDecimal u.specifiedPort.toNat) = u.specifiedPort := by
      rw [toInteger_toDecimal (by omega)]
      exact Int.toNat_of_nonneg hnonneg
    rw [splitPort_append hne fun c hc => isDigit_not_isColonStop c (toDecimal_isDigit _ c hc), hvalue]
  · rw [List.append_nil, h.splitPort_front, show u.specifiedPort = 0 by omega]

theorem parts_authority (h : Printable u) : parts u.authority = (u.userinfo, u.host, u.specifiedPort) := by
  unfold parts
  rw [h.splitPort_authority]
  dsimp only
  rw [h.splitUserinfo_front]

theorem parseHost_eq (h : Printable u) (ipv6 : List UInt8 → Bool) : parseHost ipv6 u.host = .ok false := by
  have hbracket : ¬ (u.host.head? = some (ch '[') ∧ u.host.getLast? = some (ch ']')) := by
    rintro ⟨hhead, -⟩
    exact not_mem_of_delimiter h.host (by decide) (List.mem_of_mem_head? hhead)
  unfold parseHost
  rw [if_neg hbracket, if_neg h.ne_nil, if_neg h.ne_dot]

theorem parseProtocol_scheme (protocol default : Protocol) (rest : List UInt8) :
    parseProtocol (scheme protocol ++ rest) default = .ok (protocol, rest) := by
  cases protocol <;> rfl

/-- A printable URL is printed, and read back whatever the default protocol is. -/
theorem parseUrl_getUrl (h : Printable u) : ∃ printed, getUrl u = some printed ∧
    ∀ ipv6 default, parseUrl ipv6 printed default = .ok u := by
  refine ⟨scheme u.protocol ++ u.authority ++ u.query, if_pos h.query_head, fun ipv6 default => ?_⟩
  obtain ⟨tail, hquery⟩ := List.head?_eq_some_iff.mp h.query_head
  rw [parseUrl_eq_ok_iff]
  refine ⟨u.protocol, u.authority ++ u.query, u.authority, u.query, u.userinfo, u.host, u.specifiedPort, false, ?_, ?_,
    h.parts_authority, h.nonneg, h.le, h.parseHost_eq ipv6, ?_, ?_⟩
  · rw [List.append_assoc]
    exact parseProtocol_scheme _ _ _
  · rw [hquery]
    exact readTill_append h.authority_not_mem (by decide)
  · rw [h.lower]
    exact h.host
  · rw [h.lower, ← h.port, encodeQuery_eq_self h.query_head h.query_gt, ← h.isIpv6]

end Printable

/-- Every URL that is parsed is printed, and the printed URL is parsed into the same URL, whatever the
default protocol is. -/
theorem parseUrl_roundTrip (ipv6 : List UInt8 → Bool) (url : List UInt8) (default : Protocol) {u : HttpUrl}
    (h : parseUrl ipv6 url default = .ok u) : ∃ printed, getUrl u = some printed ∧
      ∀ default', parseUrl ipv6 printed default' = .ok u := by
  obtain ⟨printed, hprinted, hparse⟩ := (printable_of_parseUrl h).parseUrl_getUrl
  exact ⟨printed, hprinted, hparse ipv6⟩

/-- `u:p@@A%4a:0080abc?x y ` is read as `https://u:p@@a%4a:80/?x%20y`. -/
theorem parseUrl_roundTrip_mixed : ∃ printed,
    getUrl ⟨.https, chs ['u', ':', 'p', '@'], chs ['a', '%', '4', 'a'], false, 80, 80,
      chs ['/', '?', 'x', '%', '2', '0', 'y']⟩ = some printed ∧
    ∀ default', parseUrl (fun _ => false) printed default' = .ok ⟨.https, chs ['u', ':', 'p', '@'],
      chs ['a', '%', '4', 'a'], false, 80, 80, chs ['/', '?', 'x', '%', '2', '0', 'y']⟩ :=
  parseUrl_roundTrip _ (chs ['u', ':', 'p', '@', '@', 'A', '%', '4', 'a', ':', '0', '0', '8', '0', 'a', 'b', 'c',
    '?', 'x', ' ', 'y', ' ']) .https (by rfl)

end HttpUrl

end TdUtils.Text
