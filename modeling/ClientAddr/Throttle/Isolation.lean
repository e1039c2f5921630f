import ClientAddr.Resolve.Noninterference
import ClientAddr.Throttle.Charged

/-! # Quotas of different clients

With a limiter that keeps its addresses apart, the requests that are charged to other
addresses have no effect on the responses to one, and the headers of a peer that is no
trusted proxy do not change whom its requests are charged to.
-/

namespace ClientAddr

variable {Instant : Type} {limiter : KeyedLimiter Instant} {state : AppState} {k : IpAddr}
  {request : Instant × Parts}

/-- The responses to the requests that are charged to an address. -/
def responsesTo (limiter : KeyedLimiter Instant) (state : AppState) (k : IpAddr)
    (requests : List (Instant × Parts)) : List Response :=
  (throttle limiter state).answers (fun request => decide (chargedTo state request.2 = some k))
    requests (throttle limiter state).init

/-- The request came from a peer that is no trusted proxy, at another address. -/
def fromStranger (state : AppState) (k : IpAddr) (request : Instant × Parts) : Bool :=
  request.2.connectInfo.any fun peer =>
    !state.clientIpConfig.isTrustedProxy peer.ip && decide (canonicalIp peer.ip ≠ k)

def ownCheck (state : AppState) (k : IpAddr) (request : Instant × Parts) :
    Option (IpAddr × Instant) :=
  (checkOf state request).bind (Option.guard fun check => check.1 = k)

theorem isSome_ownCheck :
    (ownCheck state k request).isSome = decide (chargedTo state request.2 = some k) := by
  unfold ownCheck checkOf
  cases hc : chargedTo state request.2 with
  | none => simp
  | some ip => by_cases h : ip = k <;> simp [h]

/-- A stranger's request is charged to its own address, whatever its headers are. -/
theorem chargedTo_of_stranger (h : fromStranger state k request = true) :
    chargedTo state request.2 ≠ some k := by
  obtain ⟨now, headers, connectInfo⟩ := request
  cases connectInfo with
  | none => cases h
  | some peer =>
    simp only [fromStranger, Option.any_some, Bool.and_eq_true, Bool.not_eq_true',
      decide_eq_true_eq] at h
    obtain ⟨hp, hk⟩ := h
    have hok : fromRequestParts ⟨headers, some peer⟩ state =
        .ok (state.clientIpConfig.resolveClientIp headers peer.ip) := rfl
    rw [resolveClientIp_of_not_proxy hp] at hok
    simp only [chargedTo, hok]
    exact fun he => hk (Option.some.inj he)

theorem ownCheck_of_stranger (h : fromStranger state k request = true) :
    ownCheck state k request = none := by
  rw [← Option.not_isSome_iff_eq_none, isSome_ownCheck, decide_eq_true_eq]
  exact chargedTo_of_stranger h

theorem countdowns_keepsApart (quota : ℕ) :
    (countdowns quota).KeepsApart fun ip left => left ip where
  other := fun _ _ _ _ hne => Function.update_of_ne hne.symm ..
  own := by
    rintro k i (s : IpAddr → ℕ) (t : IpAddr → ℕ) (hst : s k = t k)
    have hs : ∀ left : IpAddr → ℕ, Function.update left k (left k - 1) k = left k - 1 :=
      fun _ => Function.update_self ..
    exact ⟨congrArg (fun n => decide (0 < n)) hst,
      (hs s).trans ((congrArg (· - 1) hst).trans (hs t).symm)⟩

/-- Requests from strangers do not change what the client at an address is answered. -/
theorem strangers_do_not_interfere {Cell : Type} (limiter : KeyedLimiter Instant)
    (cell : IpAddr → limiter.State → Cell) (hl : limiter.KeepsApart cell) (state : AppState)
    (k : IpAddr) (requests requests' : List (Instant × Parts))
    (h : requests.filter (fun request => !fromStranger state k request) =
      requests'.filter fun request => !fromStranger state k request) :
    responsesTo limiter state k requests = responsesTo limiter state k requests' := by
  have hp := (projects_limiter limiter state).trans (hl.projects k)
  simp only [responsesTo, ← isSome_ownCheck]
  refine hp.answers_congr ⟨_, rfl, rfl⟩ (q := fun request => !fromStranger state k request) ?_ h
  intro request hs
  exact ownCheck_of_stranger (by simpa using hs)

/-- 198.51.100.9 cannot use up the only request of 203.0.113.7 by naming it. -/
theorem sample_stranger_does_not_interfere :
    let stranger : IpAddr := .v4 (Ipv4Addr.new 198 51 100 9)
    responsesTo (countdowns 1) ⟨TrustedProxiesBuilder.sampleConfig⟩
        TrustedProxiesBuilder.sampleClient
        [sampleRequest ⟨stranger, 4711, 0⟩,
          sampleRequest ⟨TrustedProxiesBuilder.sampleProxy, 80, 0⟩] =
      [handler ⟨TrustedProxiesBuilder.sampleClient,
        .chainHeader ChainHeader.xForwardedFor.name⟩] := by
  intro stranger
  have h := strangers_do_not_interfere (countdowns 1) (fun ip left => left ip)
    (countdowns_keepsApart 1) ⟨TrustedProxiesBuilder.sampleConfig⟩
    TrustedProxiesBuilder.sampleClient
    [sampleRequest ⟨stranger, 4711, 0⟩, sampleRequest ⟨TrustedProxiesBuilder.sampleProxy, 80, 0⟩]
    [sampleRequest ⟨TrustedProxiesBuilder.sampleProxy, 80, 0⟩]
    (by rw [List.filter_cons_of_neg (by decide +kernel)])
  exact h.trans (by decide +kernel)

end ClientAddr
