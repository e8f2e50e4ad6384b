import PassHash.Proofs.FreshSetting
import PassHash.Proofs.Refusal
import PassHash.Proofs.Verdict

/-!
# Fresh Settings in Output Areas

A request for a fresh setting stamps the output area with the failure token and leaves it at that,
or stores a setting over it. The setting selects the method that was requested. The size of the area
decides whether there is a setting, and for the schemes with rounds how much salt it has: a larger
area holds the same setting or one that goes on with whole groups.

## Contents

- `FreshSetting.Request.randomFor`: the random bytes of a request

## Main statements

- `FreshSetting.text_eq_ok_iff`: when there is a fresh setting, and which
- `FreshSetting.run_of_text_eq_ok`, `FreshSetting.run_of_text_eq_error`: result and output area of a
  request
- `FreshSetting.run_eq_generateInto`: a request in terms of the method
- `FreshSetting.text_of_le`: what more room makes of a request
- `FreshSetting.run_atomic`: what a request leaves in its area, and what it does to larger ones
-/

namespace PassHash

namespace FreshSetting

variable {source : Entropy} {q : Request} {area setting : Bytes}

/-! ## Texts -/

/-- The random bytes for a method, drawn from the source if the request brings none. -/
def Request.randomFor (q : Request) (source : Entropy) (m : Method) : Except Failure Bytes :=
  match q.random with
  | some random => .ok random
  | none => source.draw m.randomBytes

theorem text_eq_ok_iff {capacity : Nat} : text source capacity q = .ok setting ↔
    3 ≤ capacity ∧ ∃ m, q.method? = some m ∧ ∃ random, q.randomFor source m = .ok random ∧
      m.generate capacity q.count random = .ok setting := by
  simp only [text, Request.randomFor, Checks.need_bind_eq_ok_iff, Checks.orInvalid_bind_eq_ok_iff]
  cases q.random with
  | some random => simp
  | none => simp only [Checks.bind_eq_ok_iff]

/-- A request that passes the checks is left to the method. -/
theorem text_eq_generate {capacity : Nat} {m : Method} {random : Bytes} (hcapacity : 3 ≤ capacity)
    (hm : q.method? = some m) (hrandom : q.randomFor source m = .ok random) :
    text source capacity q = m.generate capacity q.count random := by
  rw [text, Room.need_eq_ok_iff.2 hcapacity, hm]
  unfold Request.randomFor at hrandom
  cases hq : q.random with
  | some drawn =>
    rw [hq] at hrandom
    cases hrandom
    rfl
  | none =>
    rw [hq] at hrandom
    replace hrandom : source.draw m.randomBytes = .ok random := hrandom
    show (source.draw m.randomBytes >>= fun random => m.generate capacity q.count random) = _
    rw [hrandom]
    rfl

/-- A fresh setting fits the area that it is made for. -/
theorem length_of_text_eq_ok {capacity : Nat} (ht : text source capacity q = .ok setting) :
    setting.length + 1 ≤ capacity := by
  obtain ⟨-, m, -, random, -, hmade⟩ := text_eq_ok_iff.1 ht
  exact m.generate_fitting capacity q.count random setting hmade

/-- A fresh setting has no forbidden characters, is not empty and selects the requested method. -/
theorem ofSetting?_of_text_eq_ok {capacity : Nat} (ht : text source capacity q = .ok setting) :
    Setting.hasForbidden setting = false ∧ setting ≠ [] ∧
      ∃ m, q.method? = some m ∧ Method.ofSetting? setting = some m := by
  obtain ⟨-, m, hm, random, -, hmade⟩ := text_eq_ok_iff.1 ht
  obtain ⟨hclean, hne, hselects⟩ := Method.ofSetting?_of_generate hmade
  exact ⟨hclean, hne, m, hm, hselects⟩

/-- With more room there is a setting for the request as well: the same, or one that adds to the
    salt. -/
theorem text_of_le {capacity capacity' : Nat} (hle : capacity ≤ capacity')
    (ht : text source capacity q = .ok setting) :
    text source capacity' q = .ok setting ∨
      ∃ m scheme longer, q.method? = some m ∧ m.roundsSalt? = some scheme ∧
        text source capacity' q = .ok longer ∧ scheme.AddsGroups q.count setting longer := by
  obtain ⟨hthree, m, hm, random, hrandom, hmade⟩ := text_eq_ok_iff.1 ht
  have hthree' := Nat.le_trans hthree hle
  rcases Method.generate_of_le hle hmade with hsame | ⟨scheme, longer, hscheme, hlonger, hadds⟩
  · exact .inl (text_eq_ok_iff.2 ⟨hthree', m, hm, random, hrandom, hsame⟩)
  · exact .inr ⟨m, scheme, longer, hm, hscheme,
      text_eq_ok_iff.2 ⟨hthree', m, hm, random, hrandom, hlonger⟩, hadds⟩

/-! ## Areas -/

/-- A fresh setting is stored over the token, and read back from there. -/
theorem run_of_text_eq_ok (ht : text source area.length q = .ok setting) :
    run source area q = (.ok setting, Area.store (Token.stamp [] area) setting) := by
  have hstored : Area.settle (Token.stamp [] area) (.ok setting) =
      (.ok setting, Area.store (Token.stamp [] area) setting) := by
    apply Hashing.settle_ok
    rw [Token.length_stamp]
    exact length_of_text_eq_ok ht
  have hclean := (ofSetting?_of_text_eq_ok ht).1
  simp only [run, ht, hstored, Except.bind, Hashing.read_store hclean]

theorem run_of_text_eq_error {e : Failure} (ht : text source area.length q = .error e) :
    run source area q = (.error e, Token.stamp [] area) := by
  simp only [run, ht, Area.settle, Except.bind]

/-- The result depends on the size of the area only, and storing adds no failures. -/
theorem run_fst (source : Entropy) (area : Bytes) (q : Request) :
    (run source area q).1 = text source area.length q := by
  cases ht : text source area.length q with
  | ok setting => rw [run_of_text_eq_ok ht]
  | error e => rw [run_of_text_eq_error ht]

/-- A request that names a method and has room for the token is one of the method, in the area with
    the token. -/
theorem run_eq_generateInto {m : Method} {random : Bytes} (harea : 3 ≤ area.length)
    (hm : q.method? = some m) (hrandom : q.randomFor source m = .ok random) :
    run source area q = m.generateInto (Token.stamp [] area) q.count random := by
  have hlen : (Token.stamp [] area).length = area.length := Token.length_stamp ..
  rw [Method.generateInto, hlen]
  cases hmade : m.generate area.length q.count random with
  | ok setting =>
    have ht : text source area.length q = .ok setting :=
      text_eq_ok_iff.2 ⟨harea, m, hm, random, hrandom, hmade⟩
    rw [run_of_text_eq_ok ht, Hashing.settle_ok (hlen ▸ length_of_text_eq_ok ht)]
  | error e =>
    have ht : text source area.length q = .error e := by
      rw [← hmade]
      exact text_eq_generate harea hm hrandom
    rw [run_of_text_eq_error ht, Area.settle]

/-! ## Outcomes -/

/-- A refused request leaves nothing but the token in its area. -/
theorem run_snd_of_error {e : Failure} (hr : (run source area q).1 = .error e) :
    (run source area q).2 = Token.stamp [] area := by
  rw [run_fst] at hr
  rw [run_of_text_eq_error hr]

/-- A request that is met stores its setting over the token. -/
theorem run_snd_of_ok (hr : (run source area q).1 = .ok setting) :
    setting.length + 1 ≤ area.length ∧ (run source area q).2 =
      setting ++ 0 :: (Token.stamp [] area).drop (setting.length + 1) := by
  rw [run_fst] at hr
  refine ⟨length_of_text_eq_ok hr, ?_⟩
  rw [run_of_text_eq_ok hr]
  rfl

/-- A fresh setting is judged by the method that was requested. -/
theorem verdict_of_text_eq_ok {capacity : Nat} {m : Method}
    (ht : text source capacity q = .ok setting) (hm : q.method? = some m) :
    Verdict.ofSetting setting = .ofMethod m := by
  obtain ⟨hclean, hne, m', hm', hselects⟩ := ofSetting?_of_text_eq_ok ht
  rw [hm, Option.some.injEq] at hm'
  subst hm'
  have hself : setting.beforeNul = setting := Setting.beforeNul_of_hasForbidden hclean
  rw [← hself] at hclean hne hselects
  exact Verdict.ofSetting_of_method hne hclean hselects

/-- A request that is refused leaves the token in the area. One that is met leaves the setting with
    its terminator over the token, and the setting is one of the method that was requested. In a
    larger area the same request is met with the same setting; where the salt grows with the room,
    with one that adds whole groups to it. -/
theorem run_atomic (source : Entropy) (q : Request) :
    (∀ area e, (run source area q).1 = .error e →
      (run source area q).2 = Token.stamp [] area ∧
        (3 ≤ area.length → (run source area q).2 = Bytes.ascii "*0" ++ 0 :: area.drop 3)) ∧
    (∀ area setting, (run source area q).1 = .ok setting →
      (setting.length + 1 ≤ area.length ∧ (run source area q).2 =
        setting ++ 0 :: (Token.stamp [] area).drop (setting.length + 1)) ∧
      Setting.hasForbidden setting = false ∧
      ∃ m, q.method? = some m ∧ Method.ofSetting? setting = some m ∧
        Verdict.ofSetting setting = .ofMethod m) ∧
    (∀ area area' setting, area.length ≤ area'.length → (run source area q).1 = .ok setting →
      ∃ setting', (run source area' q).1 = .ok setting' ∧
        (setting' = setting ∨ ∃ m scheme, q.method? = some m ∧ m.roundsSalt? = some scheme ∧
          scheme.AddsGroups q.count setting setting')) := by
  refine ⟨?refused, ?met, ?larger⟩
  case refused =>
    intro area e hr
    refine ⟨run_snd_of_error hr, fun harea => ?_⟩
    rw [run_snd_of_error hr, Token.stamp_eq harea]
    rfl
  case met =>
    intro area setting hr
    refine ⟨run_snd_of_ok hr, ?_⟩
    rw [run_fst] at hr
    obtain ⟨hclean, -, m, hm, hselects⟩ := ofSetting?_of_text_eq_ok hr
    exact ⟨hclean, m, hm, hselects, verdict_of_text_eq_ok hr hm⟩
  case larger =>
    intro area area' setting hle hr
    rw [run_fst] at hr
    rw [run_fst]
    rcases text_of_le hle hr with hsame | ⟨m, scheme, longer, hm, hscheme, hlonger, hadds⟩
    · exact ⟨setting, hsame, .inl rfl⟩
    · exact ⟨longer, hlonger, .inr ⟨m, scheme, hm, hscheme, hadds⟩⟩

/-- Of a setting for SHA-256-crypt an area of seven bytes gets the token, one of twelve bytes one
    group of salt, and a larger one goes on with that salt. -/
theorem run_atomic_sha256 :
    (run (fun _ => none) (List.replicate 7 0xaa)
        ⟨some (Bytes.ascii "$5$"), 0, some (List.replicate 15 0)⟩).2 =
      Bytes.ascii "*0" ++ [0, 0xaa, 0xaa, 0xaa, 0xaa] ∧
    (run (fun _ => none) (List.replicate 12 0xaa)
        ⟨some (Bytes.ascii "$5$"), 0, some (List.replicate 15 0)⟩).2 =
      Bytes.ascii "$5$...." ++ [0, 0xaa, 0xaa, 0xaa, 0xaa] ∧
    ∃ setting, (run (fun _ => none) (List.replicate 64 0)
        ⟨some (Bytes.ascii "$5$"), 0, some (List.replicate 15 0)⟩).1 = .ok setting ∧
      (setting = Bytes.ascii "$5$...." ∨
        (ShaCrypt.fresh .sha256).AddsGroups 0 (Bytes.ascii "$5$....") setting) := by
  obtain ⟨hrefused, hmet, hlarger⟩ := run_atomic (fun _ => none)
    ⟨some (Bytes.ascii "$5$"), 0, some (List.replicate 15 0)⟩
  have hseven : (run (fun _ => none) (List.replicate 7 0xaa)
      ⟨some (Bytes.ascii "$5$"), 0, some (List.replicate 15 0)⟩).1 = .error .range := by
    decide
  have htwelve : (run (fun _ => none) (List.replicate 12 0xaa)
      ⟨some (Bytes.ascii "$5$"), 0, some (List.replicate 15 0)⟩).1 =
        .ok (Bytes.ascii "$5$....") := by
    decide
  have hmethod : Request.method? ⟨some (Bytes.ascii "$5$"), 0, some (List.replicate 15 0)⟩ =
      some (.shaCrypt .sha256) := by
    decide
  refine ⟨(hrefused _ _ hseven).2 (by decide), (hmet _ _ htwelve).1.2, ?_⟩
  obtain ⟨setting, hsetting, hsame | ⟨m, scheme, hm, hscheme, hadds⟩⟩ :=
    hlarger (List.replicate 12 0xaa) (List.replicate 64 0) _ (by decide) htwelve
  · exact ⟨setting, hsetting, .inl hsame⟩
  · rw [hmethod, Option.some.injEq] at hm
    subst hm
    cases hscheme
    exact ⟨setting, hsetting, .inr hadds⟩

end FreshSetting

end PassHash
