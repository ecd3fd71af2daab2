import Onprest.Lib.Net

/-! The client address the gateway acts on, and what a chain of forwarding proxies makes of the fields a
client sent. -/

namespace Onprest.Gateway
open Lib.Net

/-- What `clientIP` reads of a request: the address of its connection and, in order, the field lines of
the two headers. -/
structure ClientRequest where
  remoteAddr : Text
  forwardedFor : List Text
  realIP : List Text
deriving DecidableEq

/-- `Header.Get`: the first field line of a header, or the empty text. -/
def headerGet (lines : List Text) : Text := lines.headD []

def ipInBlocks (ip : IP) (blocks : List IPNet) : Bool := blocks.any fun block => block.contains ip

/-- The host of the address of a connection. -/
def remoteHost (remoteAddr : Text) : Text :=
  match splitHostPort remoteAddr with
  | some (host, _) => host
  | none => remoteAddr

def remoteIP (r : ClientRequest) : Text := remoteHost r.remoteAddr

/-- The addresses of a header field, without what does not parse. -/
def addressList (header : Text) : List IP :=
  (header.splitOn (byte ',')).filterMap fun part => parseIP (trimSpace part)

/-- The address nearest to the gateway that is not a trusted proxy's, or the empty text. -/
def forwardedForClientIP (header : Text) (remote : IP) (trusted : List IPNet) : Text :=
  match (addressList header ++ [remote]).reverse.find? fun ip => !ipInBlocks ip trusted with
  | some ip => ip.string
  | none => []

def clientIP (trusted : List IPNet) (r : ClientRequest) : Text :=
  match parseIP (remoteIP r) with
  | none => remoteIP r
  | some remote =>
    if ipInBlocks remote trusted = false then remoteIP r
    else
      let ip := forwardedForClientIP (headerGet r.forwardedFor) remote trusted
      if ip ≠ [] then ip
      else
        match parseIP (trimSpace (headerGet r.realIP)) with
        | some ip => ip.string
        | none => remote.string

def ipAllowed (allowList trusted : List IPNet) (r : ClientRequest) : Bool :=
  match parseIP (clientIP trusted r) with
  | some ip => ipInBlocks ip allowList
  | none => false

/-! ### Forwarding -/

/-- How a proxy adds its element to a list of field lines. -/
inductive ForwardMode
  | extend | add
deriving DecidableEq, Repr

/-- A proxy: its address, how it adds its element, and the element, which names its peer. -/
structure Hop where
  addr : IP
  mode : ForwardMode
  element : Text
deriving DecidableEq

/-- Extend the last field line. -/
def extendLast (element : Text) : List Text → List Text
  | [] => [element]
  | [line] => [line ++ byte ',' :: element]
  | line :: lines => line :: extendLast element lines

def Hop.forward (h : Hop) (lines : List Text) : List Text :=
  match h.mode with
  | .extend => extendLast h.element lines
  | .add => lines ++ [h.element]

/-- The field lines the gateway sees after all proxies, the nearest to the client first. -/
def forwardAll (hops : List Hop) (lines : List Text) : List Text := hops.foldl (fun l h => h.forward l) lines

/-- Every proxy is trusted and its element is one list element that names its peer. -/
def Relayed (trusted : List IPNet) : IP → List Hop → Prop
  | _, [] => True
  | peer, h :: hs =>
    byte ',' ∉ h.element ∧ parseIP (trimSpace h.element) = some peer ∧ ipInBlocks h.addr trusted = true ∧
      Relayed trusted h.addr hs

/-- The address of the last proxy, the gateway's own peer. -/
def lastAddr : Hop → List Hop → IP
  | h, [] => h.addr
  | _, h :: hs => lastAddr h hs

/-- The field line holds the address of the client, and after it only addresses of trusted proxies. -/
def Names (trusted : List IPNet) (client : IP) (line : Text) : Prop :=
  ∃ before after, addressList line = before ++ client :: after ∧ ∀ ip ∈ after, ipInBlocks ip trusted = true

section
variable {trusted : List IPNet} {client peer : IP} {element line : Text}

theorem addressList_element (hcomma : byte ',' ∉ element) (hparse : parseIP (trimSpace element) = some peer) :
    addressList element = [peer] := by
  have hsingle : element.splitOn (byte ',') = [element] := by
    refine List.splitOnP_eq_singleton fun x hx => ?_
    simpa using ne_of_mem_of_not_mem hx hcomma
  simp [addressList, hsingle, hparse]

theorem addressList_extend (hcomma : byte ',' ∉ element) (hparse : parseIP (trimSpace element) = some peer) :
    addressList (line ++ byte ',' :: element) = addressList line ++ [peer] := by
  have hsplit : (line ++ byte ',' :: element).splitOn (byte ',') =
      line.splitOn (byte ',') ++ element.splitOn (byte ',') :=
    List.splitOnP_append_cons line element (by simp)
  rw [← addressList_element hcomma hparse]
  simp [addressList, hsplit]

theorem Names.extend (h : Names trusted client line) (hcomma : byte ',' ∉ element)
    (hparse : parseIP (trimSpace element) = some peer) (hpeer : ipInBlocks peer trusted = true) :
    Names trusted client (line ++ byte ',' :: element) := by
  obtain ⟨before, after, hlist, hafter⟩ := h
  refine ⟨before, after ++ [peer], ?_, ?_⟩
  · rw [addressList_extend hcomma hparse, hlist, List.append_assoc, List.cons_append]
  · intro ip hip
    obtain hip | hip := List.mem_append.mp hip
    · exact hafter ip hip
    · rwa [List.mem_singleton.mp hip]

/-- A trusted proxy whose peer is trusted keeps the first field line naming the client. -/
theorem Names.forward {h : Hop} {lines : List Text} (hn : Names trusted client line)
    (hcomma : byte ',' ∉ h.element) (hparse : parseIP (trimSpace h.element) = some peer)
    (hpeer : ipInBlocks peer trusted = true) :
    ∃ line' lines', h.forward (line :: lines) = line' :: lines' ∧ Names trusted client line' := by
  unfold Hop.forward
  cases h.mode with
  | add => exact ⟨line, lines ++ [h.element], rfl, hn⟩
  | extend =>
    cases lines with
    | nil => exact ⟨_, [], rfl, hn.extend hcomma hparse hpeer⟩
    | cons next rest => exact ⟨line, _, rfl, hn⟩

theorem Names.forwardAll {hops : List Hop} {lines : List Text} (hn : Names trusted client line)
    (hrelay : Relayed trusted peer hops) (hpeer : ipInBlocks peer trusted = true) :
    ∃ line' lines', forwardAll hops (line :: lines) = line' :: lines' ∧ Names trusted client line' := by
  induction hops generalizing line lines peer with
  | nil => exact ⟨line, lines, rfl, hn⟩
  | cons h hs ih =>
    obtain ⟨hcomma, hparse, htrusted, hrest⟩ := hrelay
    obtain ⟨line', lines', hforward, hn'⟩ := @Names.forward trusted client peer line h lines hn hcomma hparse hpeer
    obtain ⟨line'', lines'', hall, hn''⟩ := @ih h.addr line' lines' hn' hrest htrusted
    refine ⟨line'', lines'', ?_, hn''⟩
    rw [← hall, ← hforward]
    rfl

/-- The first field line of two or more stays what the client wrote. -/
theorem forwardAll_first {hops : List Hop} {lines : List Text} (hlines : lines ≠ []) :
    ∃ lines', forwardAll hops (line :: lines) = line :: lines' := by
  induction hops generalizing lines with
  | nil => exact ⟨lines, rfl⟩
  | cons h hs ih =>
    obtain ⟨next, rest, rfl⟩ := List.exists_cons_of_ne_nil hlines
    have hforward : ∃ l, l ≠ [] ∧ h.forward (line :: next :: rest) = line :: l := by
      unfold Hop.forward
      cases h.mode with
      | add => exact ⟨next :: rest ++ [h.element], by simp, rfl⟩
      | extend =>
        refine ⟨extendLast h.element (next :: rest), ?_, rfl⟩
        cases rest <;> simp [extendLast]
    obtain ⟨l, hl, hforward⟩ := hforward
    obtain ⟨lines', hall⟩ := ih hl
    refine ⟨lines', ?_⟩
    rw [← hall, ← hforward]
    rfl

/-- A first field line that names the client is all that counts. -/
theorem forwardedForClientIP_names {remote : IP} (hn : Names trusted client line)
    (hremote : ipInBlocks remote trusted = true) (hclient : ipInBlocks client trusted = false) :
    forwardedForClientIP line remote trusted = client.string := by
  obtain ⟨before, after, hlist, hafter⟩ := hn
  have hskip : ∀ ip ∈ remote :: after.reverse, (!ipInBlocks ip trusted) = false := by
    intro ip hip
    obtain rfl | hip := List.mem_cons.mp hip
    · simp [hremote]
    · simp [hafter ip (List.mem_reverse.mp hip)]
  have hrev : (addressList line ++ [remote]).reverse =
      (remote :: after.reverse) ++ client :: before.reverse := by simp [hlist]
  have hfind : (addressList line ++ [remote]).reverse.find? (fun ip => !ipInBlocks ip trusted) = some client := by
    rw [hrev, List.find?_append, List.find?_eq_none.mpr (by simpa using hskip)]
    simp [hclient]
  unfold forwardedForClientIP
  rw [hfind]

end

variable {trusted : List IPNet} {h : Hop} {hs : List Hop} {client
  remote : IP} {r : ClientRequest} {lines : List Text}

theorem lastAddr_trusted {peer : IP} (hrelay : Relayed trusted peer (h :: hs)) :
    ipInBlocks (lastAddr h hs) trusted = true := by
  induction hs generalizing h peer with
  | nil => exact hrelay.2.2.1
  | cons g gs ih => exact ih hrelay.2.2.2

/-- With a trusted peer and a first field line that names the client, the client's address is found. -/
theorem clientIP_names {line : Text} (hlines : r.forwardedFor = line :: lines) (hn : Names trusted client line)
    (hparse : parseIP (remoteIP r) = some remote) (hremote : ipInBlocks remote trusted = true)
    (hclient : ipInBlocks client trusted = false) : clientIP trusted r = client.string := by
  have hfor := forwardedForClientIP_names hn hremote hclient
  simp [clientIP, hparse, hremote, headerGet, hlines, hfor, client.string_ne_nil]

/-- With a trusted peer and an empty first field line, the client's `X-Real-IP` is believed. -/
theorem clientIP_realIP {ip : IP} {text : Text} (hlines : r.forwardedFor = [] :: lines) (hreal : r.realIP = [text])
    (htext : parseIP (trimSpace text) = some ip) (hparse : parseIP (remoteIP r) = some remote)
    (hremote : ipInBlocks remote trusted = true) : clientIP trusted r = ip.string := by
  have hnone : addressList [] = [] := by rfl
  have hfor : forwardedForClientIP [] remote trusted = [] := by
    simp [forwardedForClientIP, hnone, hremote]
  simp [clientIP, hparse, hremote, headerGet, hlines, hreal, hfor, htext]

/-- Whatever the address of the client, there is another one a client can write. -/
theorem exists_other_address (client : IP) :
    ∃ text ip, parseIP (trimSpace text) = some ip ∧ ip.string ≠ client.string := by
  have hone : parseIP (trimSpace (ascii "192.0.2.1")) = some (IP.ofIPv4 [192, 0, 2, 1]) := by decide +kernel
  have htwo : parseIP (trimSpace (ascii "192.0.2.2")) = some (IP.ofIPv4 [192, 0, 2, 2]) := by decide +kernel
  have hne : (IP.ofIPv4 [192, 0, 2, 1]).string ≠ (IP.ofIPv4 [192, 0, 2, 2]).string := by decide +kernel
  by_cases h : (IP.ofIPv4 [192, 0, 2, 1]).string = client.string
  · exact ⟨_, _, htwo, fun h' => hne (h.trans h'.symm)⟩
  · exact ⟨_, _, hone, h⟩

/-- What the first proxy makes of the field lines of the client decides who is believed. -/
theorem first_line_named (hrelay : Relayed trusted client (h :: hs))
    (hlines : lines.length = 0 ∨ lines.length = 1 ∧ h.mode = .extend) :
    ∃ line rest, forwardAll (h :: hs) lines = line :: rest ∧ Names trusted client line := by
  obtain ⟨hcomma, hparse, htrusted, hrest⟩ := hrelay
  have hfirst : ∃ line, h.forward lines = [line] ∧ Names trusted client line := by
    obtain hzero | ⟨hone, hmode⟩ := hlines
    · obtain rfl := List.eq_nil_of_length_eq_zero hzero
      refine ⟨h.element, ?_, [], [], addressList_element hcomma hparse, by simp⟩
      unfold Hop.forward
      cases h.mode <;> rfl
    · obtain ⟨line, rfl⟩ := List.length_eq_one_iff.mp hone
      refine ⟨line ++ byte ',' :: h.element, ?_, addressList line, [], addressList_extend hcomma hparse, by simp⟩
      simp [Hop.forward, hmode, extendLast]
  obtain ⟨line, hforward, hn⟩ := hfirst
  obtain ⟨line', rest, hall, hn'⟩ := @Names.forwardAll trusted client h.addr line hs [] hn hrest htrusted
  refine ⟨line', rest, ?_, hn'⟩
  rw [← hall, ← hforward]
  rfl

/-- Otherwise the first field line stays the one the client wrote. -/
theorem first_line_kept {line : Text} {lines : List Text}
    (hlines : lines ≠ [] ∨ h.mode = .add) : ∃ rest, forwardAll (h :: hs) (line :: lines) = line :: rest := by
  by_cases hnil : lines = []
  · subst hnil
    have hmode : h.mode = .add := hlines.resolve_left (by simp)
    obtain ⟨rest, hall⟩ := @forwardAll_first line hs [h.element] (by simp)
    refine ⟨rest, ?_⟩
    rw [← hall]
    simp [forwardAll, Hop.forward, hmode]
  · exact forwardAll_first hnil

/-- A peer that is not a trusted proxy is the client whatever the headers say. Behind a chain of trusted
proxies, the client's address is found for all contents of `n` field lines exactly when the element of
the first proxy goes into the first field line: the client sent none, or one that the proxy extends. -/
theorem client_address_unspoofable (trusted : List IPNet) :
    (∀ r, (∀ ip, parseIP (remoteIP r) = some ip → ipInBlocks ip trusted = false) →
        clientIP trusted r = remoteIP r) ∧
      ∀ (client : IP) (h : Hop) (hs : List Hop) (remoteAddr : Text) (n : ℕ),
        ipInBlocks client trusted = false → Relayed trusted client (h :: hs) →
        parseIP (remoteHost remoteAddr) = some (lastAddr h hs) →
        ((∀ lines realIP allowList, lines.length = n →
            clientIP trusted ⟨remoteAddr, forwardAll (h :: hs) lines, realIP⟩ = client.string ∧
            ipAllowed allowList trusted ⟨remoteAddr, forwardAll (h :: hs) lines, realIP⟩ =
              (parseIP client.string).any fun ip => ipInBlocks ip allowList) ↔
          n = 0 ∨ n = 1 ∧ h.mode = .extend) := by
  refine ⟨?_, ?_⟩
  · intro r hpeer
    unfold clientIP
    split
    · rfl
    · rename_i ip hip
      simp [hpeer ip hip]
  · intro client h hs remoteAddr n hclient hrelay hremote
    have htrusted := lastAddr_trusted hrelay
    constructor
    · intro hall
      by_contra hn
      obtain ⟨text, ip, htext, hne⟩ := exists_other_address client
      -- empty field lines, so that nothing but `X-Real-IP` names an address
      obtain ⟨k, rfl⟩ : ∃ k, n = k + 1 := Nat.exists_eq_succ_of_ne_zero (by tauto)
      have hkept : List.replicate k ([] : Text) ≠ [] ∨ h.mode = .add := by
        cases hmode : h.mode with
        | add => exact .inr rfl
        | extend =>
          refine .inl ?_
          rw [Ne, List.replicate_eq_nil_iff]
          rintro rfl
          exact hn (.inr ⟨rfl, hmode⟩)
      obtain ⟨rest, hrest⟩ := @first_line_kept h hs [] _ hkept
      have hspoof := (hall ([] :: List.replicate k []) [text] [] (by simp)).1
      have hbelieved : clientIP trusted ⟨remoteAddr, forwardAll (h :: hs) ([] :: List.replicate k []), [text]⟩ =
          ip.string := clientIP_realIP hrest rfl htext hremote htrusted
      exact hne (hbelieved.symm.trans hspoof)
    · rintro hn lines realIP allowList rfl
      obtain ⟨line, rest, hlines, hnames⟩ := first_line_named hrelay hn
      have hfound : clientIP trusted ⟨remoteAddr, forwardAll (h :: hs) lines, realIP⟩ = client.string :=
        clientIP_names hlines hnames hremote htrusted hclient
      refine ⟨hfound, ?_⟩
      unfold ipAllowed
      rw [hfound]
      cases parseIP client.string <;> rfl

/-- The network 10.0.0.0/8. -/
def tenNet : IPNet := .v4 0x0a000000 0xff000000

/-- The proxy 10.0.0.1 in front of the client 203.0.113.9. -/
def edgeProxy (mode : ForwardMode) : Hop := ⟨IP.ofIPv4 [10, 0, 0, 1], mode, ascii " 203.0.113.9"⟩

/-- The proxy 10.0.0.2 behind it. -/
def innerProxy : Hop := ⟨IP.ofIPv4 [10, 0, 0, 2], .add, ascii "10.0.0.1"⟩

theorem client_address_unspoofable_twoProxies :
    clientIP [tenNet] ⟨ascii "10.0.0.2:443",
        forwardAll [edgeProxy .extend, innerProxy] [ascii "198.51.100.7, 10.9.9.9"], [ascii "198.51.100.7"]⟩ =
      ascii "203.0.113.9" := by
  have hall := ((client_address_unspoofable [tenNet]).2 (IP.ofIPv4 [203, 0, 113, 9]) (edgeProxy .extend) [innerProxy]
    (ascii "10.0.0.2:443") 1 (by decide +kernel)
    ⟨by decide +kernel, by decide +kernel, by decide +kernel, by decide +kernel, by decide +kernel,
      by decide +kernel, trivial⟩ (by decide +kernel)).mpr (.inr ⟨rfl, rfl⟩)
  exact (hall [ascii "198.51.100.7, 10.9.9.9"] [ascii "198.51.100.7"] [] rfl).1.trans (by decide +kernel)

/-- A trusted proxy that adds a field line of its own leaves the first one, and so the address, to a
client outside the trusted networks. -/
theorem addedLine_spoofed :
    ipInBlocks (IP.ofIPv4 [203, 0, 113, 9]) [tenNet] = false ∧
      ipInBlocks (edgeProxy .add).addr [tenNet] = true ∧
      parseIP (trimSpace (edgeProxy .add).element) = some (IP.ofIPv4 [203, 0, 113, 9]) ∧
      clientIP [tenNet] ⟨ascii "10.0.0.1:443", forwardAll [edgeProxy .add] [ascii "198.51.100.7"], []⟩ =
        ascii "198.51.100.7" ∧
      ascii "198.51.100.7" ≠ (IP.ofIPv4 [203, 0, 113, 9]).string := by
  decide +kernel

end Onprest.Gateway
