import TdUtils.Text.HttpUrl

/-!
# Text.HttpUrlParts — the port text and the host in brackets

The port text is read by `to_integer`, which stops at the first character that is not a digit and wraps around
at `2 ^ 32`, and only what it returns is compared with 65535.  So an accepted port is the number written in the
URL if and only if digits are written that denote a number below `2 ^ 32`.  A host in brackets passes the
check of its address and meets the filter of the characters next, which has no brackets: every URL with such
a host ends in the same error.
-/

namespace TdUtils.Text

open Lib Bytes

/-- `t` is written in digits and denotes `n`. -/
def IsDecimal (t : List UInt8) (n : ℕ) : Prop := t ≠ [] ∧ t.all isDigit = true ∧ decimalValue t = n

instance (t : List UInt8) (n : ℕ) : Decidable (IsDecimal t n) :=
  inferInstanceAs (Decidable (_ ∧ _ ∧ _))

variable {t : List UInt8} {n : ℕ}

/-- `to_integer` reads all of a number that is written in digits, modulo `2 ^ 32`. -/
theorem IsDecimal.readDigits_eq (h : IsDecimal t n) : readDigits 0 t = n % 2 ^ 32 := by
  obtain ⟨-, hall, hvalue⟩ := h
  have hdigits : t.takeWhile isDigit = t := List.takeWhile_eq_self_iff.mpr (List.all_eq_true.mp hall)
  rw [readDigits_eq_mod, hdigits, hvalue]

theorem IsDecimal.head_ne (h : IsDecimal t n) : t.head? ≠ some (ch '-') := by
  intro hhead
  have hdigit := List.all_eq_true.mp h.2.1 _ (List.mem_of_mem_head? hhead)
  exact absurd hdigit (by decide)

/-- A number below `2 ^ 32` is read as a value that is a port only if it is the number itself. -/
theorem IsDecimal.toInteger_eq (h : IsDecimal t n) (hn : n < 2 ^ 32) (hnonneg : 0 ≤ toInteger t) :
    toInteger t = n := by
  have hread := h.readDigits_eq
  rw [Nat.mod_eq_of_lt hn] at hread
  unfold toInteger at hnonneg ⊢
  dsimp only at hnonneg ⊢
  rw [if_neg h.head_ne, if_neg h.head_ne, if_neg h.head_ne, hread] at hnonneg
  rw [if_neg h.head_ne, if_neg h.head_ne, if_neg h.head_ne, hread]
  split_ifs at hnonneg ⊢ <;> omega

namespace HttpUrl

/-- `t` is what the URL has behind the colon of the port. -/
def PortText (url : List UInt8) (default : Protocol) (t : List UInt8) : Prop :=
  ∃ protocol start front rest, parseProtocol url default = .ok (protocol, start) ∧
    readTill (chs ['/', '?', '#']) start = (front ++ ch ':' :: t, rest) ∧ front ≠ [] ∧
    ∀ c ∈ t, isColonStop c = false

variable {ipv6 : List UInt8 → Bool} {url : List UInt8} {default : Protocol} {u : HttpUrl}

/-- The port of an accepted URL is what `to_integer` makes of the port text. -/
theorem PortText.specifiedPort_eq (hport : PortText url default t) (h : parseUrl ipv6 url default = .ok u) :
    u.specifiedPort = toInteger t ∧ 0 ≤ u.specifiedPort ∧ u.specifiedPort ≤ 65535 := by
  obtain ⟨protocol, start, front, rest, hprotocol, hread, hne, hstop⟩ := hport
  obtain ⟨protocol', start', authority, rest', userinfo, host, specifiedPort, isIpv6, hprotocol', hread', hparts,
    hnonneg, hle, -, -, rfl⟩ := parseUrl_eq_ok_iff.mp h
  rw [hprotocol] at hprotocol'
  obtain ⟨-, rfl⟩ := Prod.mk.inj (Except.ok.inj hprotocol')
  rw [hread] at hread'
  obtain ⟨rfl, -⟩ := Prod.mk.inj hread'
  refine ⟨?_, hnonneg, hle⟩
  unfold parts at hparts
  rw [splitPort_append hne hstop] at hparts
  exact (Prod.mk.inj (Prod.mk.inj hparts).2).2.symm

/-- The port of an accepted URL is the number from 0 to 65535 that its port text denotes if and only if the
port text denotes a number below `2 ^ 32` at all. -/
theorem specifiedPort_isDecimal_iff (hport : PortText url default t) (h : parseUrl ipv6 url default = .ok u) :
    (∃ n ≤ 65535, IsDecimal t n ∧ u.specifiedPort = (n : ℤ)) ↔ ∃ n < 2 ^ 32, IsDecimal t n := by
  obtain ⟨hvalue, hnonneg, hle⟩ := hport.specifiedPort_eq h
  constructor
  · rintro ⟨n, hn, hdecimal, -⟩
    exact ⟨n, by omega, hdecimal⟩
  · rintro ⟨n, hn, hdecimal⟩
    have heq : toInteger t = n := hdecimal.toInteger_eq hn (by omega)
    exact ⟨n, by omega, hdecimal, by omega⟩

/-- `http://a:0080/` has the port 80. -/
theorem specifiedPort_isDecimal_zeros :
    (∃ n ≤ 65535, IsDecimal (chs ['0', '0', '8', '0']) n ∧ (80 : ℤ) = n) ↔
      ∃ n < 2 ^ 32, IsDecimal (chs ['0', '0', '8', '0']) n :=
  @specifiedPort_isDecimal_iff _ (fun _ => false) (chs ['h', 't', 't', 'p', ':', '/', '/', 'a', ':', '0', '0', '8', '0', '/'])
    .http ⟨.http, [], chs ['a'], false, 80, 80, chs ['/']⟩
    ⟨.http, chs ['a', ':', '0', '0', '8', '0', '/'], chs ['a'], chs ['/'], rfl, rfl, by decide, by decide⟩ rfl

/-- `http://a:80abc/` is accepted, with the port 80. -/
theorem port_with_letters :
    PortText (chs ['h', 't', 't', 'p', ':', '/', '/', 'a', ':', '8', '0', 'a', 'b', 'c', '/']) .http
      (chs ['8', '0', 'a', 'b', 'c']) ∧
    ∃ u, parseUrl (fun _ => false)
        (chs ['h', 't', 't', 'p', ':', '/', '/', 'a', ':', '8', '0', 'a', 'b', 'c', '/']) .http = .ok u ∧
      ¬ ∃ n ≤ 65535, IsDecimal (chs ['8', '0', 'a', 'b', 'c']) n ∧ u.specifiedPort = (n : ℤ) := by
  refine ⟨⟨.http, chs ['a', ':', '8', '0', 'a', 'b', 'c', '/'], chs ['a'], chs ['/'], rfl, rfl, by decide,
    by decide⟩, ⟨.http, [], chs ['a'], false, 80, 80, chs ['/']⟩, rfl, ?_⟩
  rintro ⟨n, -, ⟨-, hall, -⟩, -⟩
  exact absurd hall (by decide)

/-! ### Hosts in brackets -/

/-- The userinfo as it stands in a URL. -/
def userinfoText : Option (List UInt8) → List UInt8
  | none => []
  | some userinfo => userinfo ++ [ch '@']

/-- The port as it stands in a URL. -/
def portText : Option ℕ → List UInt8
  | none => []
  | some port => ch ':' :: toDecimal port

/-- The address in brackets. -/
def bracketed (addr : List UInt8) : List UInt8 := ch '[' :: (addr ++ [ch ']'])

variable {start addr query rest : List UInt8} {userinfo : Option (List UInt8)} {port : Option ℕ}

theorem toLowerChar_delimiter : ∀ d ∈ delimiters, toLowerChar d = d := by decide

theorem toLowerChar_not_delimiter (c : UInt8) (h : toLowerChar c ∉ delimiters) : c ∉ delimiters := fun hc =>
  h (by rwa [toLowerChar_delimiter c hc])

theorem toLower_eq_separator {s : List UInt8} (h : toLower s = chs [':', '/', '/']) :
    s = chs [':', '/', '/'] := by
  unfold toLower chs at h
  obtain ⟨a, s, rfl, ha, h⟩ := List.map_eq_cons_iff.mp h
  obtain ⟨b, s, rfl, hb, h⟩ := List.map_eq_cons_iff.mp h
  obtain ⟨c, s, rfl, hc, h⟩ := List.map_eq_cons_iff.mp h
  obtain rfl := List.map_eq_nil_iff.mp h
  rw [eq_of_toLowerChar ha (by decide), eq_of_toLowerChar hb (by decide), eq_of_toLowerChar hc (by decide)]
  rfl

/-- A protocol is recognised in letters of either case. -/
theorem parseProtocol_of_toLower {protocol : Protocol} (h : toLower start = scheme protocol) :
    parseProtocol (start ++ rest) default = .ok (protocol, rest) := by
  have hword : ∃ word, scheme protocol = word ++ chs [':', '/', '/'] ∧ (∀ c ∈ word, c ∉ delimiters) ∧
      ((protocol = .http ∧ word = chs ['h', 't', 't', 'p']) ∨
        (protocol = .https ∧ word = chs ['h', 't', 't', 'p', 's'])) := by
    cases protocol with
    | http => exact ⟨_, rfl, by decide, .inl ⟨rfl, rfl⟩⟩
    | https => exact ⟨_, rfl, by decide, .inr ⟨rfl, rfl⟩⟩
  obtain ⟨word, hscheme, hclean, hprotocol⟩ := hword
  rw [hscheme] at h
  obtain ⟨s, separator, rfl, hs, hseparator⟩ := List.map_eq_append_iff.mp h
  obtain rfl := toLower_eq_separator hseparator
  have hfree : ∀ c ∈ s, c ∉ delimiters := fun c hc =>
    toLowerChar_not_delimiter c (hclean _ (hs ▸ List.mem_map_of_mem hc))
  have hread : readTill delimiters (s ++ chs [':', '/', '/'] ++ rest) = (s, chs [':', '/', '/'] ++ rest) := by
    rw [List.append_assoc]
    exact readTill_append hfree (by decide)
  have hskip : trySkip (chs [':', '/', '/']) (chs [':', '/', '/'] ++ rest) = some rest := rfl
  unfold delimiters at hread
  unfold parseProtocol
  rw [hread]
  dsimp only
  rw [hskip]
  dsimp only
  change toLower s = word at hs
  rcases hprotocol with ⟨rfl, rfl⟩ | ⟨rfl, rfl⟩
  · rw [if_pos hs]
  · rw [if_neg (by rw [hs]; decide), if_pos hs]

/-- No `://` stands at the first delimiter when a bracket opens before any slash. -/
theorem trySkip_dropWhile : ∀ {s : List UInt8}, (∀ c ∈ s, c ≠ ch '/') →
    trySkip (chs [':', '/', '/']) ((s ++ ch '[' :: rest).dropWhile fun c => c ∉ delimiters) = none
  | [], _ => rfl
  | c :: s, h => by
    by_cases hc : c ∈ delimiters
    · rw [List.cons_append, List.dropWhile_cons_of_neg (by simpa using hc)]
      unfold trySkip
      refine if_neg ?_
      intro hsep
      obtain ⟨tail, htail⟩ := List.isPrefixOf_iff_prefix.mp hsep
      have hnext : (s ++ ch '[' :: rest).head? = some (ch '/') := by
        rw [← (List.cons.inj htail).2]
        rfl
      cases s with
      | nil => exact absurd (Option.some.inj hnext) (by decide)
      | cons d s => exact h d (List.mem_cons_of_mem _ List.mem_cons_self) (Option.some.inj hnext)
    · rw [List.cons_append, List.dropWhile_cons_of_pos (by simpa using hc)]
      exact trySkip_dropWhile fun d hd => h d (List.mem_cons_of_mem _ hd)

theorem parseProtocol_without (h : ∀ c ∈ start, c ≠ ch '/') :
    parseProtocol (start ++ ch '[' :: rest) default = .ok (default, start ++ ch '[' :: rest) := by
  have hskip : trySkip (chs [':', '/', '/']) ((start ++ ch '[' :: rest).dropWhile fun c => c ∉ delimiters) = none :=
    trySkip_dropWhile h
  unfold delimiters at hskip
  unfold parseProtocol readTill
  dsimp only
  rw [hskip]

theorem userinfoText_not_mem (h : ∀ s ∈ userinfo, ∀ c ∈ s, c ∉ chs ['/', '?', '#']) :
    ∀ c ∈ userinfoText userinfo, c ∉ chs ['/', '?', '#'] := by
  cases userinfo with
  | none => exact fun c hc => absurd hc List.not_mem_nil
  | some s =>
    intro c hc
    rcases List.mem_append.mp hc with hc | hc
    · exact h s rfl c hc
    · rw [List.mem_singleton.mp hc]
      decide

theorem bracketed_not_mem (h : ∀ c ∈ addr, c ∉ chs ['/', '?', '#', '@']) :
    ∀ c ∈ bracketed addr, c ∉ chs ['/', '?', '#'] := by
  intro c hc
  unfold bracketed at hc
  rcases List.mem_cons.mp hc with rfl | hc
  · decide
  · rcases List.mem_append.mp hc with hc | hc
    · intro hmem
      exact h c hc (List.mem_append_left (chs ['@']) hmem)
    · rw [List.mem_singleton.mp hc]
      decide

theorem portText_not_mem (port : Option ℕ) : ∀ c ∈ portText port, c ∉ chs ['/', '?', '#'] := by
  cases port with
  | none => exact fun c hc => absurd hc List.not_mem_nil
  | some n =>
    intro c hc
    rcases List.mem_cons.mp hc with rfl | hc
    · decide
    · exact fun hmem => isDigit_not_delimiter c (toDecimal_isDigit n c hc) (delimiter_authority c hmem)

/-- What no delimiter is in is read up to a delimiter or the end. -/
theorem readTill_eq {str front : List UInt8} (hfront : ∀ c ∈ front, c ∉ str) (hquery : ∀ c ∈ query.head?, c ∈ str) :
    readTill str (front ++ query) = (front, query) := by
  cases query with
  | nil =>
    have hall : ∀ c ∈ front, decide (c ∉ str) = true := fun c hc => decide_eq_true (hfront c hc)
    unfold readTill
    rw [List.append_nil, List.takeWhile_eq_self_iff.mpr hall, List.dropWhile_eq_nil_iff.mpr hall]
  | cons d query => exact readTill_append hfront (hquery d rfl)

/-- A port is split off behind the bracket, and the bracket stops the scan where there is none. -/
theorem splitPort_bracketed (front : List UInt8) (hport : ∀ n ∈ port, n ≤ 65535) :
    ∃ n : ℤ, 0 ≤ n ∧ n ≤ 65535 ∧
      splitPort (front ++ bracketed addr ++ portText port) = (front ++ bracketed addr, n) := by
  have hfront : front ++ bracketed addr = (front ++ ch '[' :: addr) ++ ch ']' :: [] := by
    unfold bracketed
    rw [List.append_assoc, List.cons_append]
  cases port with
  | none =>
    refine ⟨0, le_rfl, by omega, ?_⟩
    have hscan := @colonFrom_eq (front ++ ch '[' :: addr) [] (ch ']') rfl
      (fun c hc => absurd hc List.not_mem_nil) ((front ++ bracketed addr).length - 1) (by
        have hlen : (front ++ ch '[' :: addr ++ [ch ']']).length = (front ++ ch '[' :: addr).length + 1 :=
          List.length_append
        rw [hfront, hlen, Nat.add_sub_cancel])
    unfold portText
    rw [List.append_nil, hfront]
    rw [hfront] at hscan
    unfold splitPort
    dsimp only
    rw [hscan, getElem?_pre]
    exact if_neg fun hcolon => absurd hcolon.2 (by decide)
  | some n =>
    have hn := hport n rfl
    refine ⟨n, by omega, by omega, ?_⟩
    have hne : front ++ bracketed addr ≠ [] := by
      rw [hfront]
      exact List.append_ne_nil_of_right_ne_nil _ (List.cons_ne_nil _ _)
    unfold portText
    rw [splitPort_append hne fun c hc => isDigit_not_isColonStop c (toDecimal_isDigit n c hc),
      toInteger_toDecimal (by omega)]

theorem splitUserinfo_bracketed (haddr : ch '@' ∉ addr) :
    ∃ s, splitUserinfo (userinfoText userinfo ++ bracketed addr) = (s, bracketed addr) := by
  have hat : ch '@' ∉ bracketed addr := by
    unfold bracketed
    rw [List.mem_cons, List.mem_append, List.mem_singleton]
    rintro (h | h | h)
    · exact absurd h (by decide)
    · exact haddr h
    · exact absurd h (by decide)
  unfold splitUserinfo
  cases userinfo with
  | none =>
    unfold userinfoText
    rw [List.nil_append, rfind_eq_none hat]
    exact ⟨[], rfl⟩
  | some s =>
    have hlen : s.length < (s ++ ch '@' :: bracketed addr).length := by
      rw [List.length_append, List.length_cons]
      omega
    unfold userinfoText
    rw [List.append_assoc, List.singleton_append, rfind_eq hat _ hlen]
    dsimp only
    rw [drop_pre]
    exact ⟨_, rfl⟩

theorem parseHost_bracketed (h : ipv6 (bracketed addr) = true) :
    parseHost ipv6 (bracketed addr) = .ok true := by
  have hlast : (bracketed addr).getLast? = some (ch ']') := by
    unfold bracketed
    rw [← List.cons_append]
    exact List.getLast?_concat
  unfold parseHost
  rw [if_pos ⟨rfl, hlast⟩, if_pos h]

/-- The filter of the characters has no brackets. -/
theorem checkIpv6Host_bracketed (addr : List UInt8) :
    checkIpv6Host (toLower (bracketed addr)) = .error "Wrong IPv6 URL host" := by
  unfold checkIpv6Host
  refine if_neg fun hall => ?_
  exact absurd (List.all_eq_true.mp hall (ch '[') List.mem_cons_self) (by decide)

/-- Every URL whose host is an address in brackets is an error, with any userinfo, port and query. -/
theorem parseUrl_bracketed (hstart : start = [] ∨ ∃ protocol, toLower start = scheme protocol)
    (huserinfo : ∀ s ∈ userinfo, ∀ c ∈ s, c ∉ chs ['/', '?', '#'])
    (haddr : ∀ c ∈ addr, c ∉ chs ['/', '?', '#', '@']) (hipv6 : ipv6 (bracketed addr) = true)
    (hport : ∀ n ∈ port, n ≤ 65535) (hquery : ∀ c ∈ query.head?, c ∈ chs ['/', '?', '#']) :
    parseUrl ipv6 (start ++ (userinfoText userinfo ++ bracketed addr ++ portText port ++ query)) default =
      .error "Wrong IPv6 URL host" := by
  obtain ⟨n, hnonneg, hle, hsplit⟩ := @splitPort_bracketed addr port (userinfoText userinfo) hport
  have hat : ch '@' ∉ addr := fun hmem => haddr _ hmem (by decide)
  obtain ⟨s, hsplit'⟩ := @splitUserinfo_bracketed addr userinfo hat
  have hprotocol : ∃ protocol, parseProtocol
      (start ++ (userinfoText userinfo ++ bracketed addr ++ portText port ++ query)) default =
        .ok (protocol, userinfoText userinfo ++ bracketed addr ++ portText port ++ query) := by
    rcases hstart with rfl | ⟨protocol, hscheme⟩
    · refine ⟨default, ?_⟩
      have hslash : ∀ c ∈ userinfoText userinfo, c ≠ ch '/' := by
        rintro c hc rfl
        exact userinfoText_not_mem huserinfo _ hc (by decide)
      unfold bracketed
      rw [List.nil_append, List.append_assoc, List.append_assoc, List.cons_append]
      exact parseProtocol_without hslash
    · exact ⟨protocol, parseProtocol_of_toLower hscheme⟩
  have hauthority : ∀ c ∈ userinfoText userinfo ++ bracketed addr ++ portText port, c ∉ chs ['/', '?', '#'] := by
    intro c hc
    rcases List.mem_append.mp hc with hc | hc
    · rcases List.mem_append.mp hc with hc | hc
      · exact userinfoText_not_mem huserinfo c hc
      · exact bracketed_not_mem haddr c hc
    · exact portText_not_mem port c hc
  have hread : readTill (chs ['/', '?', '#'])
      (userinfoText userinfo ++ bracketed addr ++ portText port ++ query) =
        (userinfoText userinfo ++ bracketed addr ++ portText port, query) := readTill_eq hauthority hquery
  obtain ⟨protocol, hprotocol⟩ := hprotocol
  unfold parseUrl
  rw [hprotocol]
  simp only [bind, Except.bind, hread, hsplit, hsplit', parseHost_bracketed hipv6]
  rw [if_neg (by omega)]
  dsimp only [pure, Except.pure]
  unfold checkAnyHost
  rw [if_pos rfl, checkIpv6Host_bracketed]

/-- `https://u@[::1]:8/x`. -/
theorem parseUrl_bracketed_port :
    parseUrl (fun host => host = bracketed (chs [':', ':', '1']))
      (scheme .https ++ (userinfoText (some [ch 'u']) ++ bracketed (chs [':', ':', '1']) ++ portText (some 8) ++
        chs ['/', 'x'])) .http = .error "Wrong IPv6 URL host" :=
  parseUrl_bracketed (.inr ⟨.https, rfl⟩) (by decide) (by decide) (by decide)
    (fun n hn => Option.some.inj hn ▸ by decide) (fun c hc => Option.some.inj hc ▸ by decide)

/-- `http://[::1]/` is not accepted, though `::1` is an address. -/
theorem loopback_rejected :
    ¬ ∃ u, parseUrl (fun host => host = bracketed (chs [':', ':', '1']))
      (chs ['h', 't', 't', 'p', ':', '/', '/', '[', ':', ':', '1', ']', '/']) .http = .ok u ∧ u.isIpv6 = true ∧
        u.host = bracketed (chs [':', ':', '1']) := by
  rintro ⟨u, hparse, -⟩
  have herror : parseUrl (fun host => host = bracketed (chs [':', ':', '1']))
      (chs ['h', 't', 't', 'p', ':', '/', '/', '[', ':', ':', '1', ']', '/']) .http =
        .error "Wrong IPv6 URL host" := by rfl
  rw [herror] at hparse
  cases hparse

end HttpUrl

end TdUtils.Text
