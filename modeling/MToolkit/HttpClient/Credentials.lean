import MToolkit.HttpClient.Response

/-!
# Stored credentials

`_session.login` and `_proxy.login` are made of a user and a password by `SetLogin` and
`SetProxy`, but only where one of these is not empty: with two empty ones the field stays as it
was, while `_session.user` and `_session.pass` do not. Whether the field follows the last setter
is thus a matter of what has been set before (`HTTPClient.consistent_iff`).
-/

namespace MToolkit

/-- The credentials of a user: none, where both are empty. -/
def loginOf (user pass : List Char) : List Char :=
  if user ≠ [] ∨ pass ≠ [] then user ++ [':'] ++ pass else []

/-- There are no credentials only for two empty strings. -/
theorem loginOf_eq_nil {user pass : List Char} :
    loginOf user pass = [] ↔ user = [] ∧ pass = [] := by
  rw [loginOf]
  split_ifs with h
  · simp only [List.append_eq_nil_iff, List.cons_ne_nil, and_false, false_and, false_iff]
    tauto
  · simp only [true_iff]
    tauto

/-- Keeping what there was follows two empty strings just when there was nothing. -/
theorem setter_iff {user pass user' pass' login : List Char} (h : login = loginOf user pass) :
    (if user' ≠ [] ∨ pass' ≠ [] then user' ++ [':'] ++ pass' else login) = loginOf user' pass' ↔
      (user' = [] → pass' = [] → user = [] ∧ pass = []) := by
  by_cases hne : user' ≠ [] ∨ pass' ≠ []
  · rw [loginOf, if_pos hne, if_pos hne]
    simp only [true_iff]
    intro huser hpass
    exact absurd hne (by simp [huser, hpass])
  · obtain ⟨huser, hpass⟩ : user' = [] ∧ pass' = [] := by
      rwa [not_or, not_not, not_not] at hne
    have hnil : loginOf user' pass' = [] := loginOf_eq_nil.mpr ⟨huser, hpass⟩
    rw [if_neg hne, h, hnil, loginOf_eq_nil]
    exact ⟨fun h _ _ => h, fun h => h huser hpass⟩

namespace HTTPClient

/-- **The credentials follow** the user and the password, for the session and the proxy. -/
structure Consistent (s : HTTPClient) : Prop where
  session : s.session.login = loginOf s.session.user s.session.pass
  proxy : s.proxy.login = loginOf s.proxy.user s.proxy.pass

/-- The call does not replace a user or a password by empty ones. -/
def Retains (s : HTTPClient) : Call → Prop
  | .setLogin user pass => user = [] → pass = [] → s.session.user = [] ∧ s.session.pass = []
  | .setProxy _ user pass _ => user = [] → pass = [] → s.proxy.user = [] ∧ s.proxy.pass = []
  | _ => True

/-- The fields that the credentials are made of, and these. -/
def credentials (s : HTTPClient) :
    (List Char × List Char × List Char) × (List Char × List Char × List Char) :=
  ((s.session.user, s.session.pass, s.session.login), (s.proxy.user, s.proxy.pass, s.proxy.login))

variable {s u : HTTPClient}

/-- What leaves these fields alone leaves the invariant alone. -/
theorem consistent_congr (h : u.credentials = s.credentials) : u.Consistent ↔ s.Consistent := by
  simp only [credentials, Prod.mk.injEq] at h
  obtain ⟨⟨huser, hpass, hlogin⟩, huser', hpass', hlogin'⟩ := h
  constructor
  · rintro ⟨hs, hp⟩
    exact ⟨by rw [← hlogin, hs, huser, hpass], by rw [← hlogin', hp, huser', hpass']⟩
  · rintro ⟨hs, hp⟩
    exact ⟨by rw [hlogin, hs, huser, hpass], by rw [hlogin', hp, huser', hpass']⟩

/-- A launch leaves them alone. -/
theorem credentials_launch (s : HTTPClient) (exchange : Option Exchange) :
    (s.launch exchange).2.credentials = s.credentials := by
  cases exchange with
  | none => rfl
  | some exchange =>
    rw [launch, perform_eq rfl, conclude]
    split_ifs <;> rfl

theorem Consistent.launch (hs : s.Consistent) (exchange : Option Exchange) :
    (s.launch exchange).2.Consistent :=
  (consistent_congr (credentials_launch s exchange)).mpr hs

/-- **One call.** -/
theorem consistent_call_iff (s : HTTPClient) (c : Call) (hs : s.Consistent) :
    (s.call c).Consistent ↔ s.Retains c := by
  have hoption : ∀ option, (s.setRequestOption option).Consistent := fun _ => ⟨hs.session, hs.proxy⟩
  cases c with
  | setLogin user pass =>
    rw [Retains, ← setter_iff hs.session]
    exact ⟨fun h => h.session, fun h => ⟨h, hs.proxy⟩⟩
  | setProxy host user pass type =>
    rw [Retains, ← setter_iff hs.proxy]
    exact ⟨fun h => h.proxy, fun h => ⟨hs.session, h⟩⟩
  | clear => exact iff_of_true ⟨rfl, rfl⟩ trivial
  | clearProxy => exact iff_of_true ⟨hs.session, rfl⟩ trivial
  | clearSession => exact iff_of_true ⟨rfl, hs.proxy⟩ trivial
  | get exchange => exact iff_of_true ((hoption _).launch exchange) trivial
  | put exchange => exact iff_of_true ((hoption _).launch exchange) trivial
  | post exchange => exact iff_of_true ((hoption _).launch exchange) trivial
  | request exchange => exact iff_of_true (hs.launch exchange) trivial
  | _ => exact iff_of_true ⟨hs.session, hs.proxy⟩ trivial

/-- **Stored credentials follow the last setter** throughout a sequence of calls just when none
of them gives an empty user and an empty password while there is a user or a password. -/
theorem consistent_iff (calls : List Call) :
    (∀ s ∈ Lts.states call init calls, s.Consistent) ↔
      ∀ p ∈ Lts.steps call init calls, p.1.Retains p.2 :=
  Lts.states_iff_steps consistent_call_iff calls ⟨rfl, rfl⟩

/-- The credentials of one server are still there after the empty ones of the next. -/
theorem consistent_relogin :
    ¬∀ s ∈ Lts.states call init [.setLogin ['u'] ['p'], .setLogin [] []], s.Consistent := by
  intro h
  have hlast := h (after [.setLogin ['u'] ['p'], .setLogin [] []]) (by simp [Lts.states, after])
  exact absurd hlast.session (by decide)

end HTTPClient

end MToolkit
