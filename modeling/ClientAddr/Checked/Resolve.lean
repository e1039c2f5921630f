import ClientAddr.Checked.Entries
import ClientAddr.Model.Resolve

/-! # Resolving with every check

The resolver as the source runs it: rules are indexed, strings are sliced at byte
offsets, hops are read when an iterator is called for them. No check fails on any
config, request and peer, no loop goes on for ever, and the answer is that of the
plain resolver.
-/

namespace ClientAddr.Checked

/-- The item at an index, which must be in range. -/
def index {α : Type} (l : List α) (i : ℕ) : Checked α :=
  match l[i]? with
  | some a => .ok a
  | none => .error .index

def ruleFor (config : ClientIpConfig) (ip : IpAddr) : Checked (Option TrustedProxyRule) :=
  match config.trust with
  | .trustedProxies rules _ =>
    let ip := canonicalIp ip
    let i := partitionPoint (fun rule => decide (rule.cidr.firstAddress ≤ ip)) rules
    match checkedSub i 1 with
    | none => .ok none
    | some i => do
      let rule ← index rules i
      return if rule.cidr.contains ip then some rule else none
  | .noProxy | .trustAllProxies _ => .ok none

def isTrustedProxy (config : ClientIpConfig) (ip : IpAddr) : Checked Bool :=
  match config.trust with
  | .noProxy => .ok false
  | .trustedProxies _ _ => do return (← ruleFor config ip).isSome
  | .trustAllProxies _ => .ok true

/-- What is done with the hops of a chain header. -/
abbrev Pick := (it : DoubleEnded (Checked ChainEntry)) → it.State → Checked (Option IpAddr)

def force {σ : Type} : Option (Checked ChainEntry × σ) → Checked (Option ChainEntry)
  | none => .ok none
  | some (entry, _) => do return some (← entry)

/-- Take hops from the back and drop them, then return the next one. -/
def nthBack (it : DoubleEnded (Checked ChainEntry)) : ℕ → it.State → Checked (Option ChainEntry)
  | 0, s => force (it.nextBack s)
  | n + 1, s =>
    match it.nextBack s with
    | none => .ok none
    | some (entry, s) => do
      let _ ← entry
      nthBack it n s

def selectTrustAllChainIp (selection : TrustAllChainIpSelection) : Pick := fun it s => do
  let entry ← match selection with
    | .leftmost => force (it.next s)
    | .rightmost => force (it.nextBack s)
    | .skipRightmostHops hops => nthBack it hops s
  match entry with
  | some (.Ip ip) => return some ip
  | some .Opaque | none => return none

def firstNonTrustedFromRight (config : ClientIpConfig) (it : DoubleEnded (Checked ChainEntry))
    (s : it.State) : Checked (Option IpAddr) :=
  match _h : it.nextBack s with
  | none => .ok none
  | some (entry, s') => do
    match ← entry with
    | .Ip ip =>
      if ← isTrustedProxy config ip then firstNonTrustedFromRight config it s'
      else return some ip
    | .Opaque => return none
termination_by (it.rest s).length
decreasing_by simp [DoubleEnded.rest_of_nextBack _h]

def clientIpFromChainHeaders (headers : HeaderMap) (pick : Pick) :
    List ChainHeader → Checked (Option (IpAddr × ClientIpSource))
  | [] => .ok none
  | chainHeader :: order =>
    let header := chainHeader.asHeaderName
    let values := headers.getAll header
    if values = [] then clientIpFromChainHeaders headers pick order
    else do
      let ip ← match chainHeader.kind with
        | .forwarded => do
          match ← forwardedEntries values with
          | none => return none
          | some entries => pick (.ofList (Checked ChainEntry)) (entries.map .ok)
        | .xForwardedFor =>
          match listHeaderEntries values with
          | none => .ok none
          | some s => pick hopIter s
      return ip.map fun ip => (ip, .chainHeader header)

def resolveFrom (headers : HeaderMap) (socketIp : IpAddr) (clientIpHeader : Option HeaderName)
    (order : List ChainHeader) (pick : Pick) : Checked ClientIp :=
  match clientIpHeader.bind fun header =>
      (configuredClientIpHeader headers header).map fun ip =>
        (⟨ip, .configuredHeader header⟩ : ClientIp) with
  | some answer => .ok answer
  | none => do
    match ← clientIpFromChainHeaders headers pick order with
    | some (ip, source) => return ⟨ip, source⟩
    | none => return ⟨socketIp, .socket⟩

def resolveClientIpFromTrustedProxies (headers : HeaderMap) (socketIp : IpAddr)
    (config : ClientIpConfig) (chainHeaderOrder : List ChainHeader) : Checked ClientIp := do
  match ← ruleFor config socketIp with
  | none => return ⟨socketIp, .socket⟩
  | some rule =>
    resolveFrom headers socketIp rule.clientIpHeader chainHeaderOrder
      (firstNonTrustedFromRight config)

def resolveClientIpTrustingAllProxies (headers : HeaderMap) (socketIp : IpAddr)
    (mode : TrustAllProxyMode) : Checked ClientIp :=
  resolveFrom headers socketIp mode.clientIpHeader mode.chainHeaderOrder
    (selectTrustAllChainIp mode.chainIpSelection)

def resolveClientIp (config : ClientIpConfig) (headers : HeaderMap) (peerIp : IpAddr) :
    Checked ClientIp :=
  let peerIp := canonicalIp peerIp
  match config.trust with
  | .noProxy => .ok ⟨peerIp, .socket⟩
  | .trustedProxies _ chainHeaderOrder =>
    resolveClientIpFromTrustedProxies headers peerIp config chainHeaderOrder
  | .trustAllProxies mode => resolveClientIpTrustingAllProxies headers peerIp mode

/-- The index in front of the partition point is in range, whatever the rules are. -/
theorem ruleFor_eq (config : ClientIpConfig) (ip : IpAddr) :
    ruleFor config ip = .ok (config.ruleFor ip) := by
  unfold ruleFor ClientIpConfig.ruleFor
  cases config.trust with
  | noProxy => rfl
  | trustAllProxies mode => rfl
  | trustedProxies rules order =>
    simp only [Option.bind_eq_bind]
    have hle := partitionPoint_le (p := fun rule : TrustedProxyRule =>
      decide (rule.cidr.firstAddress ≤ canonicalIp ip)) rules
    generalize partitionPoint _ rules = n at hle
    cases n with
    | zero => rfl
    | succ i =>
      have hi : i < rules.length := hle
      have hsub : checkedSub (i + 1) 1 = some i := by simp [checkedSub]
      simp [hsub, index, List.getElem?_eq_getElem hi]

theorem isTrustedProxy_eq (config : ClientIpConfig) (ip : IpAddr) :
    isTrustedProxy config ip = .ok (config.isTrustedProxy ip) := by
  unfold isTrustedProxy ClientIpConfig.isTrustedProxy
  cases config.trust with
  | noProxy => rfl
  | trustedProxies rules order => simp [ruleFor_eq]
  | trustAllProxies mode => rfl

section Picks

variable {it : DoubleEnded (Checked ChainEntry)} {s : it.State} {entries : List ChainEntry}

/-- A pick that calls an iterator does what a pick does with the hops it stands for. -/
def Follows (pick : Pick) (pick' : List ChainEntry → Option IpAddr) : Prop :=
  ∀ (it : DoubleEnded (Checked ChainEntry)) (s : it.State) (entries : List ChainEntry),
    it.rest s = entries.map .ok → pick it s = .ok (pick' entries)

theorem force_next (h : it.rest s = entries.map .ok) :
    force (it.next s) = .ok entries.head? := by
  cases hn : it.next s with
  | none =>
    rw [DoubleEnded.rest_of_next_none hn] at h
    rw [List.map_eq_nil_iff.mp h.symm]
    rfl
  | some q =>
    rw [DoubleEnded.rest_of_next hn] at h
    obtain ⟨e, l, rfl, he, -⟩ := List.map_eq_cons_iff.mp h.symm
    simp [force, ← he]

theorem force_nextBack (h : it.rest s = entries.map .ok) :
    force (it.nextBack s) = .ok entries.getLast? := by
  cases hn : it.nextBack s with
  | none =>
    rw [DoubleEnded.rest_of_nextBack_none hn] at h
    rw [List.map_eq_nil_iff.mp h.symm]
    rfl
  | some q =>
    rw [DoubleEnded.rest_of_nextBack hn] at h
    obtain ⟨l, m, rfl, -, hm⟩ := List.map_eq_append_iff.mp h.symm
    obtain ⟨e, rfl, he⟩ := List.map_eq_singleton_iff.mp hm
    simp [force, ← he]

theorem nthBack_eq (n : ℕ) (h : it.rest s = entries.map .ok) :
    nthBack it n s = .ok entries.reverse[n]? := by
  induction n generalizing s entries with
  | zero => rw [nthBack, force_nextBack h, ← List.head?_reverse, List.head?_eq_getElem?]
  | succ n ih =>
    cases hn : it.nextBack s with
    | none =>
      rw [DoubleEnded.rest_of_nextBack_none hn] at h
      simp [nthBack, hn, List.map_eq_nil_iff.mp h.symm]
    | some q =>
      rw [DoubleEnded.rest_of_nextBack hn] at h
      obtain ⟨l, m, rfl, hl, hm⟩ := List.map_eq_append_iff.mp h.symm
      obtain ⟨e, rfl, he⟩ := List.map_eq_singleton_iff.mp hm
      simp [nthBack, hn, ← he, ih hl.symm]

theorem picked_ip (entry : Option ChainEntry) :
    (match entry with
      | some (.Ip ip) => (return some ip : Checked (Option IpAddr))
      | some .Opaque | none => return none) =
    .ok (match entry with
      | some (.Ip ip) => some ip
      | some .Opaque | none => none) := by
  rcases entry with _ | _ | _ <;> rfl

theorem follows_selectTrustAllChainIp (selection : TrustAllChainIpSelection) :
    Follows (selectTrustAllChainIp selection) (ClientAddr.selectTrustAllChainIp selection) := by
  intro it s entries h
  unfold selectTrustAllChainIp ClientAddr.selectTrustAllChainIp
  cases selection with
  | leftmost =>
    simp only [force_next h, ok_bind]
    exact picked_ip _
  | rightmost =>
    simp only [force_nextBack h, ok_bind]
    exact picked_ip _
  | skipRightmostHops hops =>
    simp only [nthBack_eq hops h, ok_bind]
    exact picked_ip _

theorem follows_firstNonTrustedFromRight (config : ClientIpConfig) :
    Follows (firstNonTrustedFromRight config) (ClientAddr.firstNonTrustedFromRight config) := by
  intro it s entries h
  induction entries using List.reverseRecOn generalizing s with
  | nil =>
    rw [firstNonTrustedFromRight]
    split
    · rfl
    · rename_i hn
      rw [DoubleEnded.rest_of_nextBack hn] at h
      simp at h
  | append_singleton entries e ih =>
    have hplain : ClientAddr.firstNonTrustedFromRight config (entries ++ [e]) =
        firstNonTrusted config (e :: entries.reverse) := by
      rw [ClientAddr.firstNonTrustedFromRight, List.reverse_concat]
    rw [firstNonTrustedFromRight, hplain]
    split
    · rename_i hn
      rw [DoubleEnded.rest_of_nextBack_none hn] at h
      simp at h
    · rename_i e' s' hn
      rw [DoubleEnded.rest_of_nextBack hn, List.map_append] at h
      obtain ⟨hs, he⟩ := List.append_inj' h rfl
      obtain rfl : e' = .ok e := List.head_eq_of_cons_eq he
      cases e with
      | Opaque => rfl
      | Ip ip =>
        have ih' := ih s' hs
        simp only [ok_bind, isTrustedProxy_eq, firstNonTrusted]
        split_ifs
        · exact ih'
        · rfl

variable {pick : Pick} {pick' : List ChainEntry → Option IpAddr}

theorem clientIpFromChainHeaders_eq (hp : Follows pick pick') (headers : HeaderMap)
    (order : List ChainHeader) :
    clientIpFromChainHeaders headers pick order =
      .ok (ClientAddr.clientIpFromChainHeaders headers pick' order) := by
  induction order with
  | nil => rfl
  | cons chainHeader order ih =>
    simp only [clientIpFromChainHeaders, ClientAddr.clientIpFromChainHeaders]
    split_ifs with hv
    · exact ih
    generalize headers.getAll chainHeader.asHeaderName = values
    cases chainHeader.kind with
    | forwarded =>
      simp only [forwardedEntries_eq, ok_bind, chainEntries]
      cases ClientAddr.forwardedEntries values with
      | none => rfl
      | some entries =>
        have hpick := hp (.ofList (Checked ChainEntry)) (entries.map .ok) entries rfl
        simp only [hpick, ok_bind, Option.bind_eq_bind, Option.bind_some]
        cases pick' entries <;> rfl
    | xForwardedFor =>
      simp only [chainEntries]
      cases hs : listHeaderEntries values with
      | none =>
        rw [listHeaderEntries_eq_none_iff.mp hs]
        rfl
      | some s =>
        have hsome : ClientAddr.listHeaderEntries values ≠ none := by
          rw [ne_eq, ← listHeaderEntries_eq_none_iff, hs]
          exact Option.some_ne_none s
        obtain ⟨entries, he⟩ := Option.ne_none_iff_exists'.mp hsome
        have hpick := hp hopIter s entries (rest_of_listHeaderEntries hs he)
        simp only [he, hpick, ok_bind, Option.bind_eq_bind, Option.bind_some]
        cases pick' entries <;> rfl

theorem resolveFrom_eq (hp : Follows pick pick') (headers : HeaderMap) (socketIp : IpAddr)
    (clientIpHeader : Option HeaderName) (order : List ChainHeader) :
    resolveFrom headers socketIp clientIpHeader order pick =
      .ok (ClientAddr.resolveFrom headers socketIp clientIpHeader order pick') := by
  unfold resolveFrom ClientAddr.resolveFrom
  cases clientIpHeader.bind fun header =>
    (configuredClientIpHeader headers header).map fun ip =>
      (⟨ip, .configuredHeader header⟩ : ClientIp) with
  | some answer => rfl
  | none =>
    simp only [clientIpFromChainHeaders_eq hp, ok_bind]
    cases ClientAddr.clientIpFromChainHeaders headers pick' order <;> rfl

end Picks

/--
Resolving with every check gives the answer of the plain resolver: no index and no slice is out of
range, and every loop ends.
-/
theorem resolveClientIp_eq (config : ClientIpConfig) (headers : HeaderMap) (peerIp : IpAddr) :
    resolveClientIp config headers peerIp = .ok (config.resolveClientIp headers peerIp) := by
  unfold resolveClientIp ClientIpConfig.resolveClientIp
  cases config.trust with
  | noProxy => rfl
  | trustedProxies rules order =>
    simp only [resolveClientIpFromTrustedProxies, ClientAddr.resolveClientIpFromTrustedProxies,
      ruleFor_eq, ok_bind]
    cases config.ruleFor (canonicalIp peerIp) with
    | none => rfl
    | some rule => exact resolveFrom_eq (follows_firstNonTrustedFromRight config) ..
  | trustAllProxies mode => exact resolveFrom_eq (follows_selectTrustAllChainIp _) ..

end ClientAddr.Checked
