import Dejaveph.PlainCore
import Dejaveph.Server.Http

namespace Dejaveph.Proofs.Scopes
open Lib Server

variable {Hash β : Type} [DecidableEq Hash]

/-- Tokens mode, with no test hooks and fresh tokens. -/
def secured (readBuf writeBuf : Vector UInt8 16) : Config :=
  ⟨.tokens, randomToken "read" readBuf, randomToken "write" writeBuf, false⟩

/-- The first authorization header of a request is `Bearer TOKEN`. -/
def Carries (token : String) (r : HttpRequest) : Prop :=
  r.header "authorization" =
    some (("Bearer ".toList ++ token.toList).map (fun c => UInt8.ofNat c.toNat))

instance (token : String) (r : HttpRequest) : Decidable (Carries token r) :=
  inferInstanceAs (Decidable (_ = _))

/-- What the scopes promise. -/
structure Separated (core : XetCore Hash) (store : BlobStore Hash β) (cfg : Config) (ax : Axum) :
    Prop where
  distinct : cfg.readToken ≠ cfg.writeToken
  /-- Requests without the write token change nothing, whatever they are and however
  they interleave. -/
  unchanged : ∀ (s t : HttpState Hash β) labels, (∀ i, s.server.tasks i = none) →
    (∀ i r, .request i r ∈ labels → ¬ Carries cfg.writeToken r) →
    Run.exec (httpStep core store cfg ax) s labels = some t →
    t.server.app.index = s.server.app.index ∧ t.server.app.blob = s.server.app.blob
  /-- A request without a token has one response in all states, whatever else goes on. -/
  blind : ∀ r, ¬ Carries cfg.readToken r → ¬ Carries cfg.writeToken r → ∃ response,
    (response = .text 401 "missing bearer token" ∨ response = .text 403 "insufficient scope" ∨
      adminPath r.path ∧ response = .text 404 "") ∧
    ∀ (s : HttpState Hash β) i, s.replies i = none → s.server.tasks i = none →
      ∃ t, httpStep core store cfg ax s (.request i r) = some t ∧ t.server = s.server ∧
        ∀ labels u, Run.exec (httpStep core store cfg ax) t labels = some u →
          u.response i = some response
  /-- The read token opens every route but the `POST` ones. -/
  reader : ∀ r, Carries cfg.readToken r → accept cfg ax r =
    if r.method = .post ∧ ¬ adminPath r.path then .reply (.text 403 "insufficient scope")
    else router cfg ax r

section Tokens

theorem hexByte_visible {b : UInt8} {c : Char} (h : c ∈ hexByte b) :
    32 ≤ c.toNat ∧ c.toNat < 127 := by
  have hdigit : ∀ n < 16, 32 ≤ (Nat.digitChar n).toNat ∧ (Nat.digitChar n).toNat < 127 := by decide
  have hb : b.toNat < 256 := b.toNat_lt
  rcases List.mem_pair.mp h with rfl | rfl
  · exact hdigit _ (by omega)
  · exact hdigit _ (by omega)

theorem randomToken_toList (scope : String) (buf : Vector UInt8 16) :
    (randomToken scope buf).toList = scope.toList ++ '-' :: buf.toList.flatMap hexByte := by
  simp [randomToken]

theorem randomToken_ne_empty {scope : String} {buf : Vector UInt8 16} :
    randomToken scope buf ≠ "" := by
  intro h
  have := congrArg String.toList h
  rw [randomToken_toList] at this
  exact absurd this (by simp)

theorem randomToken_distinct (b b' : Vector UInt8 16) :
    randomToken "read" b ≠ randomToken "write" b' := by
  intro h
  have := congrArg String.toList h
  rw [randomToken_toList, randomToken_toList] at this
  exact absurd (List.cons.inj this).1 (by decide)

theorem readToken_visible {buf : Vector UInt8 16} {c : Char}
    (h : c ∈ "Bearer ".toList ++ (randomToken "read" buf).toList) :
    32 ≤ c.toNat ∧ c.toNat < 127 := by
  have hpre : ∀ c ∈ "Bearer ".toList ++ ("read".toList ++ ['-']), 32 ≤ c.toNat ∧ c.toNat < 127 := by
    simp
  rw [randomToken_toList, List.append_cons, ← List.append_assoc, List.mem_append] at h
  rcases h with h | h
  · exact hpre c h
  · obtain ⟨b, _, hc⟩ := List.mem_flatMap.mp h
    exact hexByte_visible hc

theorem carries_bearer {buf : Vector UInt8 16} {r : HttpRequest}
    (h : Carries (randomToken "read" buf) r) : bearer r = randomToken "read" buf := by
  have hstr := toStr_visible (fun _ (hc : _ ∈ "Bearer ".toList ++ (randomToken "read" buf).toList) =>
    readToken_visible hc)
  have hstrip := Text.stripPrefix_append "Bearer ".toList (randomToken "read" buf).toList
  unfold Carries at h
  unfold bearer
  rw [h, Option.bind_some, hstr, Option.bind_some, hstrip]
  simp

theorem toNat_ofNat_ascii : ∀ n < 128, (Char.ofNat n).toNat = n := by decide

theorem toStr_bytes {h : HeaderValue} {s : List Char} (hs : h.toStr = some s) :
    h = s.map (fun c => UInt8.ofNat c.toNat) := by
  unfold HeaderValue.toStr at hs
  split at hs
  · rename_i hall
    cases hs
    rw [List.map_map]
    refine (List.map_id h).symm.trans (List.map_congr_left ?_)
    intro b hb
    have hlt : b.toNat < 128 := by
      have hv := List.all_eq_true.mp hall b hb
      simp only [Bool.or_eq_true, Bool.and_eq_true, decide_eq_true_eq, beq_iff_eq] at hv
      rcases hv with ⟨_, hv⟩ | rfl
      · exact Nat.lt_succ_of_lt (UInt8.lt_iff_toNat_lt.mp hv)
      · decide
    change b = UInt8.ofNat (Char.ofNat b.toNat).toNat
    rw [toNat_ofNat_ascii _ hlt, UInt8.ofNat_toNat]
  · cases hs

theorem bearer_carries {token : String} {r : HttpRequest} (hne : token ≠ "")
    (h : bearer r = token) : Carries token r := by
  unfold bearer at h
  cases hs : ((r.header "authorization").bind HeaderValue.toStr).bind
    (Text.stripPrefix "Bearer ".toList) with
  | none =>
    rw [hs] at h
    exact absurd h.symm hne
  | some rest =>
    rw [hs] at h
    obtain ⟨s, hr, hstrip⟩ := Option.bind_eq_some_iff.mp hs
    obtain ⟨v, hv, hstr⟩ := Option.bind_eq_some_iff.mp hr
    have htoken : token.toList = rest := by
      rw [← h]
      simp
    have hsplit : s = "Bearer ".toList ++ rest := Text.stripPrefix_eq_some.mp hstrip
    rw [Carries, hv, toStr_bytes hstr, htoken, hsplit]

end Tokens

section Routes
variable {cfg : Config} {ax : Axum} {r : HttpRequest}

theorem router_cases (ax : Axum) (r : HttpRequest) (hooks : cfg.testHooks = false) :
    ((∀ route ∈ apiRoutes, ax.capture route.pattern r.path = none) ∧
      router cfg ax r = .reply (.text 404 "")) ∨
    ∃ route ∈ apiRoutes, ∃ params, ax.capture route.pattern r.path = some params ∧
      router cfg ax r =
        if route.serves r.method then .ofExtracted (route.endpoint.target cfg ax r) params
        else .reply (.text 405 "") := by
  unfold router routes
  rw [hooks, if_neg Bool.false_ne_true]
  cases hf : apiRoutes.findSome? (fun route =>
    (ax.capture route.pattern r.path).map (fun params => (route, params))) with
  | none =>
    refine .inl ⟨fun route hm => ?_, rfl⟩
    exact Option.map_eq_none_iff.mp (List.findSome?_eq_none_iff.mp hf route hm)
  | some found =>
    obtain ⟨route, hm, hc⟩ := List.exists_of_findSome?_eq_some hf
    obtain ⟨params, hp, rfl⟩ := Option.map_eq_some_iff.mp hc
    exact .inr ⟨route, hm, params, hp, rfl⟩

/-- No data route lies below `/admin/`. -/
theorem capture_admin (hax : ax.MatchesLiterally) (hp : adminPath r.path = true) :
    ∀ route ∈ apiRoutes, ax.capture route.pattern r.path = none := by
  intro route hm
  by_contra hc
  have hlit := hax _ _ hc
  have hapi : ∀ route ∈ apiRoutes, "/ap".toList <+: literal route.pattern := by decide
  have hap := (hapi route hm).trans hlit
  have had : "/ad".toList <+: r.path.toList :=
    List.IsPrefix.trans (by decide) (List.isPrefixOf_iff_prefix.mp hp)
  rcases List.prefix_or_prefix_of_prefix hap had with h | h
  · exact absurd h (by decide)
  · exact absurd h (by decide)

theorem router_admin (hax : ax.MatchesLiterally) (hooks : cfg.testHooks = false)
    (hp : adminPath r.path = true) : router cfg ax r = .reply (.text 404 "") := by
  rcases router_cases ax r hooks with ⟨_, h⟩ | ⟨route, hm, params, hc, _⟩
  · exact h
  · rw [capture_admin hax hp route hm] at hc
    cases hc

/-- The endpoints behind `GET`. -/
def Reading : Request → Prop
  | .reconstruct _ | .globalDedup .. | .listEntries _ | .xorbData .. => True
  | _ => False

theorem ofExtracted_handle {α : Type} {f : α → Target} {e : Except HttpResponse α} {q : Request}
    (h : Target.ofExtracted f e = .handle q) : ∃ a, e = .ok a ∧ f a = .handle q := by
  cases e with
  | error rejection => cases h
  | ok a => exact ⟨a, rfl, h⟩

/-- A handler that is reached by another method than `POST` reads only. -/
theorem router_reading (hooks : cfg.testHooks = false) (hm : r.method ≠ .post) {q : Request}
    (h : router cfg ax r = .handle q) : Reading q := by
  rcases router_cases ax r hooks with
    ⟨_, hr⟩ | ⟨route, hroute, params, _, hr⟩
  · rw [hr] at h
    cases h
  · rw [hr] at h
    split at h
    · rename_i hserves
      obtain ⟨ps, _, ht⟩ := ofExtracted_handle h
      have hget : route.method = .get := by
        have hpost : ∀ route ∈ apiRoutes, route.method = .get ∨ route.method = .post := by decide
        rcases hpost route hroute with hg | hp
        · exact hg
        · rcases of_decide_eq_true hserves with he | ⟨hg, _⟩
          · exact absurd (he.trans hp) hm
          · exact hg
      have hends : ∀ route ∈ apiRoutes, route.method = .get →
          route.endpoint ∈ [.reconstruct, .globalDedup, .listEntries, .xorbData] := by decide
      have hend := hends route hroute hget
      generalize route.endpoint = e at ht hend
      unfold Endpoint.target at ht
      split at ht
      all_goals first | (cases ht; trivial) | (exact absurd hend (by decide)) | cases ht
    · cases h

theorem authMw_tokens (hauth : cfg.auth = .tokens) (hp : ¬ adminPath r.path) :
    authMw cfg r = if bearer r = "" then some (.text 401 "missing bearer token")
      else if (if r.method = .post then bearer r = cfg.writeToken
        else bearer r = cfg.readToken ∨ bearer r = cfg.writeToken) then none
      else some (.text 403 "insufficient scope") := by
  rw [authMw, hauth, if_neg (by simpa using hp)]

theorem authMw_admin (hp : adminPath r.path = true) : authMw cfg r = none :=
  if_pos (.inr hp)

end Routes

section Server
variable {core : XetCore Hash} {store : BlobStore Hash β}

omit [DecidableEq Hash] in
theorem start_reads {q : Request} (hq : Reading q) : (start core q).Reads := by
  have hs := start_started core q
  generalize start core q = g at hs
  cases hs with
  | putXorb | registerFile | gc => exact absurd hq id
  | reconstruct | globalDedup => trivial
  | quiet _ _ still => exact quiet_reads still

/-- Every handler in flight reads only, over the index and the store of the start. -/
structure Undisturbed (idx : Index Hash) (blob : β) (s : State Hash β) : Prop where
  reads : ∀ i t, s.tasks i = some t → t.handler.Reads
  index : s.app.index = idx
  blob : s.app.blob = blob

theorem step_undisturbed {idx : Index Hash} {blob : β} {s t : State Hash β} {l : Label Hash}
    (hs : Undisturbed idx blob s) (hl : ∀ i q, l = .request i q → Reading q)
    (h : step core store s l = some t) : Undisturbed idx blob t := by
  cases l with
  | request i q =>
    simp only [step] at h
    split at h
    · cases h
    · cases h
      exact ⟨Run.update_forall hs.reads (start_reads (hl i q rfl)), hs.index, hs.blob⟩
  | step i c =>
    simp only [step] at h
    split at h
    · cases h
    · rename_i task ht
      obtain ⟨⟨app, g⟩, hadv, rfl⟩ := Option.map_eq_some_iff.mp h
      obtain ⟨hr, hi, hb⟩ := advance_reads (hs.reads i task ht) hadv
      exact ⟨Run.update_forall hs.reads hr, hi.trans hs.index, hb.trans hs.blob⟩

variable {cfg : Config} {ax : Axum}

/-- A step behind HTTP is a step of the server, or gives a response at once. -/
theorem httpStep_cases {s t : HttpState Hash β} {l : HttpLabel Hash}
    (h : httpStep core store cfg ax s l = some t) :
    (∃ i r response, l = .request i r ∧ s.replies i = none ∧ t = s.reply i response) ∨
    ∃ l' server, step core store s.server l' = some server ∧ t = { s with server } ∧
      ∀ i q, l' = .request i q → ∃ r, l = .request i r ∧ accept cfg ax r = .handle q := by
  cases l with
  | request i r =>
    simp only [httpStep] at h
    split at h
    · rename_i hfree
      split at h
      · cases h
        exact .inl ⟨i, r, _, rfl, hfree.1, rfl⟩
      · cases h
        exact .inl ⟨i, r, _, rfl, hfree.1, rfl⟩
      · rename_i q hq
        obtain ⟨server, hs, rfl⟩ := Option.map_eq_some_iff.mp h
        refine .inr ⟨_, server, hs, rfl, ?_⟩
        rintro _ _ ⟨⟩
        exact ⟨r, rfl, hq⟩
    · cases h
  | step i c =>
    obtain ⟨server, hs, rfl⟩ := Option.map_eq_some_iff.mp h
    exact .inr ⟨_, server, hs, rfl, nofun⟩

theorem http_projects {s t : HttpState Hash β} {labels : List (HttpLabel Hash)}
    {C : Request → Prop} (hC : ∀ i r q, .request i r ∈ labels → accept cfg ax r = .handle q → C q)
    (h : Run.exec (httpStep core store cfg ax) s labels = some t) :
    ∃ labels', (∀ l ∈ labels', ∀ i q, l = .request i q → C q) ∧
      Run.exec (step core store) s.server labels' = some t.server := by
  refine Run.exec_projects
    (C := fun l => ∀ i r q, l = .request i r → accept cfg ax r = .handle q → C q) ?_
    (fun l hl i r q he => hC i r q (by rw [← he]; exact hl)) h
  intro s l t hl h
  rcases httpStep_cases h with ⟨i, r, response, _, _, rfl⟩ | ⟨l', server, hs, rfl, hq⟩
  · exact .inl rfl
  · refine .inr ⟨l', ?_, hs⟩
    intro i q he
    obtain ⟨r, hr, ha⟩ := hq i q he
    exact hl i r q hr ha

theorem replies_stay {s t : HttpState Hash β} {labels : List (HttpLabel Hash)} {i : ℕ}
    {response : HttpResponse} (hs : s.replies i = some response)
    (h : Run.exec (httpStep core store cfg ax) s labels = some t) :
    t.replies i = some response := by
  refine Run.exec_preserves (I := fun s => s.replies i = some response) ?_ hs h
  intro s l t hs h
  rcases httpStep_cases h with ⟨j, r, other, _, hfree, rfl⟩ | ⟨l', server, _, rfl, _⟩
  · have hj : i ≠ j := by
      rintro rfl
      rw [hs] at hfree
      cases hfree
    exact (Function.update_of_ne hj _ _).trans hs
  · exact hs

end Server

section Promise
variable {core : XetCore Hash} {store : BlobStore Hash β} {cfg : Config} {ax : Axum}
  {r : HttpRequest}

/-- A request without the write token reaches reading handlers only. -/
theorem accept_reading (hax : ax.MatchesLiterally) (hauth : cfg.auth = .tokens)
    (hooks : cfg.testHooks = false) (hw : cfg.writeToken ≠ "") (hr : ¬ Carries cfg.writeToken r)
    {q : Request} (h : accept cfg ax r = .handle q) : Reading q := by
  unfold accept at h
  by_cases hp : adminPath r.path = true
  · rw [authMw_admin hp] at h
    rw [show router cfg ax r = _ from router_admin hax hooks hp] at h
    cases h
  · rw [authMw_tokens hauth hp] at h
    have hb : bearer r ≠ cfg.writeToken := fun he => hr (bearer_carries hw he)
    by_cases hm : r.method = .post
    · simp only [hm, if_true, hb, if_false] at h
      split at h
      · cases h
      · rename_i hnone
        split at hnone <;> cases hnone
    · split at h
      · cases h
      · exact router_reading hooks hm h

/-- A request without a token is turned away by a text that depends on it alone. -/
theorem accept_blind (hax : ax.MatchesLiterally) (hauth : cfg.auth = .tokens)
    (hooks : cfg.testHooks = false) (hr : bearer r ≠ cfg.readToken)
    (hw : bearer r ≠ cfg.writeToken) : ∃ response, accept cfg ax r = .reply response ∧
      (response = .text 401 "missing bearer token" ∨ response = .text 403 "insufficient scope" ∨
        adminPath r.path ∧ response = .text 404 "") := by
  unfold accept
  by_cases hp : adminPath r.path = true
  · rw [authMw_admin hp]
    exact ⟨_, router_admin hax hooks hp, .inr (.inr ⟨hp, rfl⟩)⟩
  · rw [authMw_tokens hauth hp]
    by_cases he : bearer r = ""
    · rw [if_pos he]
      exact ⟨_, rfl, .inl rfl⟩
    · rw [if_neg he, if_neg (by split <;> simp [hr, hw])]
      exact ⟨_, rfl, .inr (.inl rfl)⟩

theorem accept_reader (hauth : cfg.auth = .tokens) (hne : cfg.readToken ≠ "")
    (hw : cfg.readToken ≠ cfg.writeToken) (hb : bearer r = cfg.readToken) :
    accept cfg ax r =
      if r.method = .post ∧ ¬ adminPath r.path then .reply (.text 403 "insufficient scope")
      else router cfg ax r := by
  unfold accept
  by_cases hp : adminPath r.path = true
  · rw [authMw_admin hp, if_neg (fun h => h.2 hp)]
  · rw [authMw_tokens hauth hp, hb, if_neg hne]
    by_cases hm : r.method = .post
    · simp only [hm, hw, if_true, if_false]
      rw [if_pos ⟨trivial, hp⟩]
    · simp only [hm, false_and, true_or, if_true, if_false]

end Promise

/-- In tokens mode without test hooks the two scopes are kept apart, over every core,
store and pair of tokens. -/
theorem scopes_separate (core : XetCore Hash) (store : BlobStore Hash β) (ax : Axum)
    (literal : ax.MatchesLiterally) (readBuf writeBuf : Vector UInt8 16) :
    Separated core store (secured readBuf writeBuf) ax where
  distinct := randomToken_distinct readBuf writeBuf
  unchanged := by
    intro s t labels idle hl h
    obtain ⟨labels', hq, hrun⟩ := http_projects (C := Reading)
      (fun i r q hm ha => accept_reading literal rfl rfl randomToken_ne_empty (hl i r hm) ha) h
    have hs : Undisturbed s.server.app.index s.server.app.blob s.server :=
      ⟨fun i t ht => by simp [idle i] at ht, rfl, rfl⟩
    have ht := Run.exec_invariant (C := fun _ l => ∀ i q, l = .request i q → Reading q)
      (fun _ _ _ hi hc hstep => step_undisturbed hi hc hstep) hs
      (Run.guarded_of_forall (fun l hm _ => hq l hm) _) hrun
    exact ⟨ht.index, ht.blob⟩
  blind := by
    intro r hr hw
    have hbr : bearer r ≠ (secured readBuf writeBuf).readToken :=
      fun he => hr (bearer_carries randomToken_ne_empty he)
    have hbw : bearer r ≠ (secured readBuf writeBuf).writeToken :=
      fun he => hw (bearer_carries randomToken_ne_empty he)
    obtain ⟨response, hacc, hkind⟩ := accept_blind literal rfl rfl hbr hbw
    refine ⟨response, hkind, ?_⟩
    intro s i hrep htask
    refine ⟨s.reply i response, ?_, rfl, ?_⟩
    · simp only [httpStep, hrep, htask, and_self, if_true, hacc]
    · intro labels u hu
      have hgiven : (s.reply i response).replies i = some response := Function.update_self _ _ _
      rw [HttpState.response, replies_stay hgiven hu]
  reader := fun _ hr => accept_reader rfl randomToken_ne_empty
    (randomToken_distinct readBuf writeBuf) (carries_bearer hr)

/-- Match a path against a pattern, a parameter taking one segment. -/
def captureFrom : ℕ → List Char → List Char → Option (List String)
  | _, [], [] => some []
  | n + 1, p :: ps, path =>
    if p = '{' then
      let segment := path.takeWhile (· ≠ '/')
      if segment = [] then none
      else (captureFrom n (ps.dropWhile (· ≠ '}')).tail (path.dropWhile (· ≠ '/'))).map
        (String.ofList segment :: ·)
    else
      match path with
      | c :: cs => if p = c then captureFrom n ps cs else none
      | [] => none
  | _, _, _ => none

theorem captureFrom_literal {n : ℕ} {ps path : List Char} (h : captureFrom n ps path ≠ none) :
    ps.takeWhile (· ≠ '{') <+: path := by
  induction n generalizing ps path with
  | zero =>
    cases ps with
    | nil => exact List.nil_prefix
    | cons p ps => exact absurd rfl h
  | succ n ih =>
    cases ps with
    | nil => exact List.nil_prefix
    | cons p ps =>
      by_cases hp : p = '{'
      · simp [hp]
      · simp only [captureFrom, hp, if_false] at h
        cases path with
        | nil => exact absurd rfl h
        | cons c cs =>
          by_cases hc : p = c
          · subst hc
            simp only [if_true] at h
            simpa [hp] using ih h
          · simp only [hc, if_false] at h
            exact absurd rfl h

/-- A framework for paths without escapes, which takes no JSON. -/
def plainAxum : Axum where
  capture := fun pattern path =>
    (captureFrom pattern.length pattern.toList path.toList).map .ok
  bytes := fun limit r =>
    if limit < r.body.length then
      .error (.text 413 "Failed to buffer the request body: length limit exceeded")
    else .ok r.body
  registerFile := fun _ _ =>
    .error (.text 415 "Expected request with `Content-Type: application/json`")
  scope := fun _ _ => .error (.text 415 "Expected request with `Content-Type: application/json`")

theorem plainAxum_literal : plainAxum.MatchesLiterally := by
  intro pattern path h
  refine captureFrom_literal (n := pattern.length) ?_
  intro hn
  exact h (by simp [plainAxum, hn])

/-- A request with the read token of an empty buffer. -/
def withReadToken (m : Method) (path : String) : HttpRequest where
  method := m
  path := path
  headers := [("authorization", ("Bearer ".toList ++
    (randomToken "read" (.replicate 16 0)).toList).map (fun c => UInt8.ofNat c.toNat))]

/-- The read token of an empty buffer reads a blob and registers no file. -/
theorem scopes_separate_zeros :
    Separated Plain.plain (localFs Plain.plain "") (secured (.replicate 16 0) (.replicate 16 0))
      plainAxum ∧
    accept (secured (.replicate 16 0) (.replicate 16 0)) plainAxum
      (withReadToken .get "/api/v1/xorb-data/07") = .handle (.xorbData "07" none) ∧
    accept (secured (.replicate 16 0) (.replicate 16 0)) plainAxum
      (withReadToken .post "/api/v1/files") = .reply (.text 403 "insufficient scope") := by
  have h := scopes_separate Plain.plain (localFs Plain.plain "") plainAxum plainAxum_literal
    (.replicate 16 0) (.replicate 16 0)
  exact ⟨h, rfl, (h.reader _ (by decide)).trans (if_pos (by decide))⟩

end Dejaveph.Proofs.Scopes
