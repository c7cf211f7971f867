import GhRunner.Lib.Text
import Mathlib.Algebra.Order.Ring.Nat

namespace GhRunner.Execution

open Text

/-!
# Requests for an action archive

The redirects of an archive download, followed one by one
(`crates/execution/src/execution/actions/downloader.rs`).

* `Url`, `UrlCrate`, `sameOrigin` — URLs as the `url` crate takes them apart, and its `parse` and
  `join`;
* `Reply`, `Server` — what comes back, from a server that has seen every request so far;
* `validateArchiveHop`, `requestArchive` — as in the source, with the requests that were sent;
* `Confined` — what is to hold of every request, `answered_hops` — every hop of the chain keeps it;
* `archive_requests_confined` — and so does every call.
-/

/-! ### URLs -/

structure Url where
  scheme : Str
  /-- Empty where there is none. -/
  username : Str
  password : Option Str
  hostStr : Option Str
  /-- `None` for the scheme's own port. -/
  port : Option ℕ
  /-- Path, query and fragment. -/
  rest : Str
deriving DecidableEq, Repr

namespace Url

def defaultPort (scheme : Str) : Option ℕ :=
  if scheme = "http".toList ∨ scheme = "ws".toList then some 80
  else if scheme = "https".toList ∨ scheme = "wss".toList then some 443
  else if scheme = "ftp".toList then some 21
  else none

def portOrKnownDefault (u : Url) : Option ℕ := u.port.or (defaultPort u.scheme)

end Url

/-- An origin is a scheme, a host and a port; the source's other ones are equal to nothing. -/
abbrev TupleOrigin := Str × Str × ℕ

structure UrlCrate where
  parse : Str → Option Url
  join : Url → Str → Option Url
  /-- The origin of a URL whose scheme has none of its own, such as `blob`. -/
  innerOrigin : Url → Option TupleOrigin

def UrlCrate.origin (crate : UrlCrate) (u : Url) : Option TupleOrigin :=
  if u.scheme ∈ ["ftp".toList, "http".toList, "https".toList, "ws".toList, "wss".toList] then do
    let host ← u.hostStr
    let port ← u.portOrKnownDefault
    some (u.scheme, host, port)
  else crate.innerOrigin u

/-- `==` on origins. -/
def UrlCrate.sameOrigin (crate : UrlCrate) (u v : Url) : Bool :=
  match crate.origin u, crate.origin v with
  | some o, some o' => o = o'
  | _, _ => false

/-! ### Requests and replies -/

structure ArchiveRequest where
  url : Url
  userAgent : Str
  accept : Str
  /-- The name and the password of `Authorization: Basic`. -/
  basicAuth : Option (Str × Str)
deriving DecidableEq, Repr

structure Reply where
  status : ℕ
  /-- The bytes of the `Location` header. -/
  location : Option (List UInt8)
deriving DecidableEq, Repr

def Reply.isRedirection (reply : Reply) : Bool := 300 ≤ reply.status && reply.status < 400

/-- `HeaderValue::to_str`: visible ASCII only. -/
def headerToStr (bytes : List UInt8) : Option Str :=
  if bytes.all fun b => (32 ≤ b && b < 127) || b = 9 then
    some (bytes.map fun b => Char.ofNat b.toNat)
  else none

/-- Why an archive could not be fetched. -/
inductive ArchiveError
  | actionDownload (message : Str)
  /-- `ActionFetchKind::ArchiveTransport`. -/
  | archiveTransport (message : Str)
deriving DecidableEq, Repr

/-- What the server answers to the last of the requests it has seen; an error says whether it was a
    timeout. -/
abbrev Server := List ArchiveRequest → Except Bool Reply

def isLoopback (u : Url) : Bool :=
  match u.hostStr with
  | some host => host ∈ ["localhost".toList, "127.0.0.1".toList, "[::1]".toList]
  | none => false

def validateArchiveHop (current initial : Url) : Except ArchiveError Unit :=
  let loopback := isLoopback current
  if (current.scheme ≠ "https".toList ∧ ¬ (current.scheme = "http".toList ∧ loopback = true)) ∨
      (initial.scheme = "https".toList ∧ current.scheme ≠ "https".toList) ∨
      current.hostStr = none ∨ current.username ≠ [] ∨ current.password ≠ none then
    .error (.actionDownload "archive redirect target rejected".toList)
  else .ok ()

section Request

variable (crate : UrlCrate) (server : Server) (initial : Url) (token : Option Str)

def archiveRequest (current : Url) : ArchiveRequest where
  url := current
  userAgent := "toolu-runner".toList
  accept := "application/vnd.github+json".toList
  basicAuth :=
    (token.filter fun _ => crate.sameOrigin current initial).map fun value =>
      ("x-access-token".toList, value)

/-- The loop over the redirects, with how many more may be followed and the requests sent so
    far. -/
def requestHops : ℕ → Url → List ArchiveRequest → List ArchiveRequest × Except ArchiveError Reply
  | redirects, current, sent =>
    match validateArchiveHop current initial with
    | .error e => (sent, .error e)
    | .ok () =>
      let sent := sent ++ [archiveRequest crate initial token current]
      match server sent with
      | .error timeout =>
        (sent, .error (.archiveTransport ("archive request failed: timeout=".toList ++
          (if timeout then "true" else "false").toList)))
      | .ok received =>
        if received.isRedirection then
          match redirects with
          | 0 => (sent, .error (.archiveTransport "archive redirect limit exceeded".toList))
          | redirects + 1 =>
            match received.location.bind headerToStr with
            | none => (sent, .error (.archiveTransport "archive redirect omitted location".toList))
            | some location =>
              match crate.join current location with
              | none => (sent, .error (.actionDownload "archive redirect URL invalid".toList))
              | some next => requestHops redirects next sent
        else (sent, .ok received)

/-- The requests that were sent, and the answer. -/
def requestArchive (tarballUrl : Str) : List ArchiveRequest × Except ArchiveError Reply :=
  match crate.parse tarballUrl with
  | none => ([], .error (.actionDownload "archive URL invalid".toList))
  | some initial => requestHops crate server initial token 5 initial []

end Request

/-! ### What every hop keeps -/

/-- A request that gives nothing away: over TLS, or in the clear to this machine where the archive
    was asked for so; without user information; with the token for the host, port and scheme that
    the token is for, and for no other. -/
structure Confined (token : Option Str) (initial : Url) (request : ArchiveRequest) : Prop where
  secure : request.url.scheme = "https".toList ∨
    request.url.scheme = "http".toList ∧ isLoopback request.url = true ∧
      initial.scheme = "http".toList
  username : request.url.username = []
  password : request.url.password = none
  authorized : request.basicAuth =
    if (request.url.scheme, request.url.hostStr, request.url.portOrKnownDefault) =
        (initial.scheme, initial.hostStr, initial.portOrKnownDefault) then
      token.map fun value => ("x-access-token".toList, value)
    else none

/-- What `validateArchiveHop` lets through. -/
structure ValidHop (current initial : Url) : Prop where
  scheme : current.scheme = "https".toList ∨
    current.scheme = "http".toList ∧ isLoopback current = true
  noDowngrade : initial.scheme = "https".toList → current.scheme = "https".toList
  host : current.hostStr ≠ none
  username : current.username = []
  password : current.password = none

variable {crate : UrlCrate} {server : Server} {token : Option Str} {initial current : Url}

theorem validateArchiveHop_eq_ok_iff :
    validateArchiveHop current initial = .ok () ↔ ValidHop current initial := by
  simp only [validateArchiveHop]
  split
  case isTrue h =>
    refine ⟨nofun, fun hvalid => ?_⟩
    rcases h with ⟨hno, hnot⟩ | ⟨hs, hne⟩ | hhost | huser | hpass
    · exact absurd (hvalid.scheme.resolve_left hno) hnot
    · exact absurd (hvalid.noDowngrade hs) hne
    · exact absurd hhost hvalid.host
    · exact absurd hvalid.username huser
    · exact absurd hvalid.password hpass
  case isFalse h =>
    simp only [not_or] at h
    obtain ⟨hscheme, hdown, hhost, huser, hpass⟩ := h
    refine ⟨fun _ => ⟨?_, fun hs => not_not.mp fun hne => hdown ⟨hs, hne⟩, hhost, not_not.mp huser,
      not_not.mp hpass⟩, fun _ => rfl⟩
    by_cases hs : current.scheme = "https".toList
    · exact .inl hs
    · exact .inr (not_not.mp fun hnot => hscheme ⟨hs, hnot⟩)

variable (crate) in
/-- The origin of a URL that is requested is its scheme, host and port. -/
theorem ValidHop.origin (h : ValidHop current initial) :
    ∃ host port, crate.origin current = some (current.scheme, host, port) ∧
      current.hostStr = some host ∧ current.portOrKnownDefault = some port := by
  obtain ⟨host, hhost⟩ := Option.ne_none_iff_exists'.mp h.host
  have hport : ∃ port, current.portOrKnownDefault = some port := by
    unfold Url.portOrKnownDefault
    cases current.port with
    | some port => exact ⟨port, rfl⟩
    | none =>
      rcases h.scheme with hs | ⟨hs, -⟩
      · exact ⟨443, by rw [hs]; rfl⟩
      · exact ⟨80, by rw [hs]; rfl⟩
  obtain ⟨port, hport⟩ := hport
  refine ⟨host, port, ?_, hhost, hport⟩
  have hspecial : current.scheme ∈
      ["ftp".toList, "http".toList, "https".toList, "ws".toList, "wss".toList] := by
    rcases h.scheme with hs | ⟨hs, -⟩ <;> simp [hs]
  rw [UrlCrate.origin, if_pos hspecial, hhost, hport]
  rfl

theorem sameOrigin_iff (h : ValidHop current initial) (hinitial : ValidHop initial initial) :
    crate.sameOrigin current initial = true ↔
      (current.scheme, current.hostStr, current.portOrKnownDefault) =
        (initial.scheme, initial.hostStr, initial.portOrKnownDefault) := by
  obtain ⟨host, port, horigin, hhost, hport⟩ := h.origin crate
  obtain ⟨host', port', horigin', hhost', hport'⟩ := hinitial.origin crate
  rw [UrlCrate.sameOrigin, horigin, horigin', hhost, hport, hhost', hport']
  simp

theorem confined_archiveRequest (h : ValidHop current initial)
    (hinitial : ValidHop initial initial) :
    Confined token initial (archiveRequest crate initial token current) where
  secure := by
    rcases h.scheme with hs | ⟨hs, hloop⟩
    · exact .inl hs
    · refine .inr ⟨hs, hloop, ?_⟩
      -- a first URL over TLS does not lead to one in the clear
      rcases hinitial.scheme with hsecure | ⟨hclear, -⟩
      · have := h.noDowngrade hsecure
        rw [hs] at this
        exact absurd this (by decide)
      · exact hclear
  username := h.username
  password := h.password
  authorized := by
    show ((token.filter fun _ => crate.sameOrigin current initial).map _) =
      if (current.scheme, current.hostStr, current.portOrKnownDefault) =
          (initial.scheme, initial.hostStr, initial.portOrKnownDefault) then _ else none
    by_cases hsame : crate.sameOrigin current initial = true
    · rw [if_pos ((sameOrigin_iff h hinitial).mp hsame)]
      cases token with
      | none => rfl
      | some value => rw [Option.filter, if_pos hsame]
    · rw [if_neg fun heq => hsame ((sameOrigin_iff h hinitial).mpr heq)]
      cases token with
      | none => rfl
      | some value => rw [Option.filter, if_neg hsame]; rfl

/-- What has been sent, and how the call has ended. -/
structure Answered (server : Server) (token : Option Str) (initial : Url) (bound : ℕ)
    (r : List ArchiveRequest × Except ArchiveError Reply) : Prop where
  few : r.1.length ≤ bound
  confined : ∀ request ∈ r.1, Confined token initial request
  reply : ∀ reply, r.2 = .ok reply → reply.isRedirection = false ∧ server r.1 = .ok reply

variable (crate) in
/-- The request of a hop that has been let through, after those before it. -/
theorem confined_sent {sent : List ArchiveRequest}
    (hfirst : current = initial ∨ ValidHop initial initial)
    (hsent : ∀ request ∈ sent, Confined token initial request)
    (hok : validateArchiveHop current initial = .ok ()) :
    ValidHop initial initial ∧
      ∀ request ∈ sent ++ [archiveRequest crate initial token current],
        Confined token initial request := by
  have hvalid := validateArchiveHop_eq_ok_iff.mp hok
  have hinitial : ValidHop initial initial := hfirst.elim (fun h => h ▸ hvalid) id
  refine ⟨hinitial, fun request hrequest => ?_⟩
  rcases List.mem_append.mp hrequest with hold | hnew
  · exact hsent request hold
  · rw [List.mem_singleton.mp hnew]
    exact confined_archiveRequest hvalid hinitial

theorem answered_error {sent : List ArchiveRequest} (e : ArchiveError) (redirects : ℕ)
    (hsent : ∀ request ∈ sent ++ [archiveRequest crate initial token current],
      Confined token initial request) :
    Answered server token initial (sent.length + redirects + 1)
      (sent ++ [archiveRequest crate initial token current], .error e) where
  few := by
    rw [List.length_append, List.length_singleton]
    omega
  confined := hsent
  reply _ := nofun

/-- Each hop sends one request, which is confined, and the answer is the reply to the last. -/
theorem answered_hops (redirects : ℕ) (current : Url) (sent : List ArchiveRequest)
    (hfirst : current = initial ∨ ValidHop initial initial)
    (hsent : ∀ request ∈ sent, Confined token initial request) :
    Answered server token initial (sent.length + redirects + 1)
      (requestHops crate server initial token redirects current sent) := by
  fun_induction requestHops crate server initial token redirects current sent with
  | case1 redirects current sent e hrejected =>
    refine ⟨?_, hsent, fun _ => nofun⟩
    show sent.length ≤ sent.length + redirects + 1
    omega
  | case2 redirects current sent hok sent' timeout hfailed =>
    exact answered_error _ _ (confined_sent crate hfirst hsent hok).2
  | case3 current sent hok => exact answered_error _ 0 (confined_sent crate hfirst hsent hok).2
  | case4 current sent hok => exact answered_error _ _ (confined_sent crate hfirst hsent hok).2
  | case5 current sent hok => exact answered_error _ _ (confined_sent crate hfirst hsent hok).2
  | case6 current sent hok sent' received hreceived hredirects redirects location hlocation next
      hnext ih =>
    obtain ⟨hinitial, hmore⟩ := confined_sent crate hfirst hsent hok
    have hrest := ih (.inr hinitial) hmore
    refine ⟨?_, hrest.confined, hrest.reply⟩
    have hlength : sent'.length = sent.length + 1 := List.length_append
    have hfew := hrest.few
    omega
  | case7 redirects current sent hok sent' received hreceived hfinal =>
    refine ⟨?_, (confined_sent crate hfirst hsent hok).2, ?_⟩
    · have hlength : sent'.length = sent.length + 1 := List.length_append
      show sent'.length ≤ _
      omega
    · rintro reply ⟨⟩
      exact ⟨Bool.eq_false_iff.mpr hfinal, hreceived⟩

/-- Whatever the server answers, at most six requests are sent, each of them confined, and only a
    reply that redirects nowhere is returned. -/
theorem archive_requests_confined (crate : UrlCrate) (server : Server) (tarballUrl : Str)
    (token : Option Str) :
    (requestArchive crate server token tarballUrl).1.length ≤ 6 ∧
      (∀ request ∈ (requestArchive crate server token tarballUrl).1,
        ∃ initial, crate.parse tarballUrl = some initial ∧ Confined token initial request) ∧
      ∀ reply, (requestArchive crate server token tarballUrl).2 = .ok reply →
        reply.isRedirection = false ∧
          server (requestArchive crate server token tarballUrl).1 = .ok reply := by
  unfold requestArchive
  cases hparse : crate.parse tarballUrl with
  | none => exact ⟨Nat.zero_le 6, nofun, fun _ => nofun⟩
  | some initial =>
    have h : Answered server token initial 6 (requestHops crate server initial token 5 initial []) :=
      answered_hops 5 initial [] (.inl rfl) nofun
    exact ⟨h.few, fun request hrequest => ⟨initial, rfl, h.confined request hrequest⟩, h.reply⟩

end GhRunner.Execution
