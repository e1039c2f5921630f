import ClientAddr.Resolve.Noninterference

/-! # Exchanging one line of a request

A line of a chain header may be exchanged for one with the same hops, provided
it means the same as a client IP header. All other headers are left as they are.
-/

namespace ClientAddr

open Text

variable {headers headers' pre post : HeaderMap} {n m : HeaderName} {v v' : HeaderValue}
  {order : List ChainHeader} {h g : ChainHeader} {raw raw' : Text}
  {pick : List ChainEntry → Option IpAddr}

theorem getAll_append (pre post : HeaderMap) (m : HeaderName) :
    HeaderMap.getAll (pre ++ post) m = HeaderMap.getAll pre m ++ HeaderMap.getAll post m :=
  List.filterMap_append

theorem getAll_cons_self (n : HeaderName) (v : HeaderValue) (post : HeaderMap) :
    HeaderMap.getAll ((n, v) :: post) n = v :: HeaderMap.getAll post n := by
  simp [HeaderMap.getAll]

theorem getAll_cons_ne (hn : n ≠ m) (v : HeaderValue) (post : HeaderMap) :
    HeaderMap.getAll ((n, v) :: post) m = HeaderMap.getAll post m := by
  simp [HeaderMap.getAll, hn]

theorem getAll_congr (hn : n ≠ m) :
    HeaderMap.getAll (pre ++ (n, v) :: post) m = HeaderMap.getAll (pre ++ (n, v') :: post) m := by
  simp only [getAll_append, getAll_cons_ne hn]

theorem getAll_eq_nil_congr (pre post : HeaderMap) (n m : HeaderName) (v v' : HeaderValue) :
    HeaderMap.getAll (pre ++ (n, v) :: post) m = [] ↔
      HeaderMap.getAll (pre ++ (n, v') :: post) m = [] := by
  by_cases hn : n = m
  · subst hn
    simp [getAll_append, getAll_cons_self]
  · rw [getAll_congr hn]

theorem firstCarried_congr (hc : ∀ m, headers.getAll m = [] ↔ headers'.getAll m = []) :
    firstCarried headers order = firstCarried headers' order := by
  unfold firstCarried
  simp only [ne_eq, hc]

theorem find?_name_of_firstCarried (hf : firstCarried headers order = some g) :
    (order.find? fun h => h.asHeaderName = g.asHeaderName) = some g := by
  unfold firstCarried at hf
  have hg : headers.getAll g.asHeaderName ≠ [] := by simpa using List.find?_some hf
  induction order with
  | nil => cases hf
  | cons h order ih =>
    by_cases hh : headers.getAll h.asHeaderName = []
    · have hne : h.asHeaderName ≠ g.asHeaderName := fun he => hg (he ▸ hh)
      rw [List.find?_cons_of_neg (by simpa using hh)] at hf
      rw [List.find?_cons_of_neg (by simpa using hne)]
      exact ih hf
    · rw [List.find?_cons_of_pos (by simpa using hh)] at hf
      obtain rfl := Option.some.inj hf
      exact List.find?_cons_of_pos (by simp)

theorem chainEntries_cons (kind : ChainHeaderKind) (v : HeaderValue) (vs : List HeaderValue) :
    chainEntries kind (v :: vs) =
      v.toStr.bind fun raw => (chainEntries kind vs).map (hopsOf kind raw ++ ·) := by
  simp only [chainEntries_eq, readLines_cons]
  cases v.toStr with
  | none => rfl
  | some raw => cases readLines vs <;> rfl

theorem chainEntries_congr {kind : ChainHeaderKind} (vs us : List HeaderValue)
    (hv : v.toStr = some raw) (hv' : v'.toStr = some raw')
    (hh : hopsOf kind raw = hopsOf kind raw') :
    chainEntries kind (vs ++ v :: us) = chainEntries kind (vs ++ v' :: us) := by
  induction vs with
  | nil => simp only [List.nil_append, chainEntries_cons, hv, hv', Option.bind_some, hh]
  | cons w vs ih => simp only [List.cons_append, chainEntries_cons, ih]

/-- A line of the first carried header may be exchanged for one with the same hops. -/
theorem chainAnswer_line_congr (hh : (order.find? fun h => h.asHeaderName = n) = some h)
    (hv : v.toStr = some raw) (hv' : v'.toStr = some raw')
    (he : hopsOf h.kind raw = hopsOf h.kind raw') :
    chainAnswer (pre ++ (n, v) :: post) order pick =
      chainAnswer (pre ++ (n, v') :: post) order pick := by
  unfold chainAnswer
  rw [firstCarried_congr fun m => getAll_eq_nil_congr pre post n m v v']
  cases hf : firstCarried (pre ++ (n, v') :: post) order with
  | none => rfl
  | some g =>
    by_cases hn : n = g.asHeaderName
    · subst hn
      rw [find?_name_of_firstCarried hf] at hh
      obtain rfl := Option.some.inj hh
      simp only [Option.bind_some, getAll_append, getAll_cons_self,
        chainEntries_congr _ _ hv hv' he]
    · simp only [Option.bind_some, getAll_append, getAll_cons_ne hn]

theorem configuredClientIpHeader_eq (headers : HeaderMap) (n : HeaderName) :
    configuredClientIpHeader headers n = (headers.getAll n).getLast?.bind fun v =>
      v.toStr.bind fun raw => (IpAddr.parse (trim raw)).map canonicalIp := by
  unfold configuredClientIpHeader
  cases (headers.getAll n).getLast? with
  | none => rfl
  | some v =>
    cases hv : v.toStr with
    | none => simp [hv]
    | some raw => cases hp : IpAddr.parse (trim raw) <;> simp [hv, hp]

theorem configuredClientIpHeader_line_congr (hv : v.toStr = some raw) (hv' : v'.toStr = some raw')
    (hp : (IpAddr.parse (trim raw)).map canonicalIp = (IpAddr.parse (trim raw')).map canonicalIp)
    (m : HeaderName) :
    configuredClientIpHeader (pre ++ (n, v) :: post) m =
      configuredClientIpHeader (pre ++ (n, v') :: post) m := by
  by_cases hn : n = m
  · subst hn
    simp only [configuredClientIpHeader_eq, getAll_append, getAll_cons_self, List.getLast?_append,
      List.getLast?_cons]
    cases (HeaderMap.getAll post n).getLast? with
    | none => simp [hv, hv', hp]
    | some w => rfl
  · exact configuredClientIpHeader_congr (by rw [getAll_congr hn])

theorem resolveFrom_congr {peer : IpAddr} {header : Option HeaderName}
    (hc : configuredIp headers header = configuredIp headers' header)
    (ha : configuredIp headers header = none →
      chainAnswer headers order pick = chainAnswer headers' order pick) :
    resolveFrom headers peer header order pick = resolveFrom headers' peer header order pick := by
  cases hi : configuredIp headers header with
  | some ip =>
    have hres : ∀ {hs : HeaderMap}, configuredIp hs header = some ip →
        ∃ n ∈ header, resolveFrom hs peer header order pick = ⟨ip, .configuredHeader n⟩ :=
      fun h => resolveFrom_of_configured h
    obtain ⟨n, hn, hr⟩ := hres hi
    obtain ⟨n', hn', hr'⟩ := hres (hc ▸ hi)
    obtain rfl : n = n' := Option.mem_unique hn hn'
    rw [hr, hr']
  | none => rw [resolveFrom_of_unusable hi, resolveFrom_of_unusable (hc ▸ hi), ha hi]

end ClientAddr
