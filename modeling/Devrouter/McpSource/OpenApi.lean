import Mathlib.Data.List.AList
import Mathlib.Data.List.Sort
import Devrouter.Lib.GoText
import Devrouter.Lib.UrlQuery

/-!
# The arguments of an OpenAPI call

Model of `openAPITransport.call` in `internal/mcpsource/openapi.go`, up to the query string of its request, and of
`Source.Search`, `limitArg` and `New` in `source.go`, as far as they make the arguments of the call. The transport has
the name of the query parameter from the specification, the source has the one of the configuration; the two agree
when the latter is empty.

Every argument is supposed to be in the query string under its own name. `arguments_carried_iff` says for which
sources this is so for all requests: the argument `query` is not forwarded, and neither is a query that the transport
does not look for.
-/

namespace Devrouter.McpSource

/-! ### Values -/

/-- The value of an argument: nil, or what `fmt.Sprint` prints of it. -/
inductive Arg where
  | nil
  | val (printed : String)
  deriving DecidableEq, Repr

def Arg.sprint : Arg → String
  | .nil => "<nil>"
  | .val printed => printed

/-- A map of arguments. -/
abbrev Args := AList fun _ : String => Arg

/-- `args[key]`, which is nil for a key that is missing. -/
def argOf (args : Args) (key : String) : Arg := (args.lookup key).getD .nil

/-- `url.Values`. -/
abbrev Values := AList fun _ : String => List String

def Values.set (q : Values) (key value : String) : Values := q.insert key [value]

/-- The bytes of a text. -/
def textBytes (s : String) : UrlQuery.Bytes := s.toByteArray.data.toList

/-- `Values.Encode`: sorted by key. -/
def Values.encode (q : Values) : UrlQuery.Bytes :=
  UrlQuery.encode ((q.keys.insertionSort (· ≤ ·)).flatMap fun k =>
    ((q.lookup k).getD []).map fun v => (textBytes k, textBytes v))

/-! ### The call -/

/-- The resolved operation. -/
structure OpenAPITransport where
  /-- The parameters that stand in the request URL itself. -/
  urlQuery : Values
  queryParam : String
  queryParam_ne : queryParam ≠ ""

/-- The loop of `call`. -/
def OpenAPITransport.forward (t : OpenAPITransport) (range : List (Σ _ : String, Arg)) (q : Values) : Values :=
  range.foldl (fun q a =>
    if a.1 = t.queryParam ∨ a.1 = "query" then q else Values.set q a.1 a.2.sprint) q

/-- `call`, up to `RawQuery`. The arguments are ranged over in some order. -/
def OpenAPITransport.rawQuery (t : OpenAPITransport) (args : Args) (range : List (Σ _ : String, Arg)) :
    UrlQuery.Bytes :=
  let qv := argOf args t.queryParam
  let qv := if qv = .nil then argOf args "query" else qv
  Values.encode (t.forward range (Values.set t.urlQuery t.queryParam qv.sprint))

/-! ### The source -/

structure Config where
  queryArg : String
  limitArg : String
  extraArgs : Args
  maxDocs : ℤ

structure OpenAPISource where
  cfg : Config
  tr : OpenAPITransport
  maxDoc : ℤ

/-- `New`, with the transport it made. -/
def OpenAPISource.new (cfg : Config) (oa : OpenAPITransport) : OpenAPISource where
  cfg := if cfg.queryArg = "" then { cfg with queryArg := oa.queryParam } else cfg
  tr := oa
  maxDoc := if cfg.maxDocs ≤ 0 then 5 else cfg.maxDocs

/-- What a call is made of in a request. -/
structure Request where
  query : String
  terms : List String
  paths : List String
  maxDocs : ℤ

def dedup (xs : List String) : List String := ((xs.map trimSpace).filter (· ≠ "")).eraseDups

def composeQuery (req : Request) : String :=
  trimSpace (" ".intercalate (dedup (req.query :: (req.terms.take 5 ++ req.paths.take 3))))

namespace OpenAPISource

variable (s : OpenAPISource)

def limitArg : String :=
  if s.cfg.limitArg ≠ "" then s.cfg.limitArg
  else (["max_docs", "limit", "top_k", "k", "count"].find? fun k => (s.cfg.extraArgs.lookup k).isSome).getD "max_docs"

/-- The arguments of `Search`. -/
def args (req : Request) : Args :=
  let maxDoc := if 0 < req.maxDocs then req.maxDocs else s.maxDoc
  let qArg := if s.cfg.queryArg = "" then "query" else s.cfg.queryArg
  let args := s.cfg.extraArgs.insert qArg (.val (composeQuery req))
  if 0 < req.maxDocs ∧ s.limitArg ≠ "" then args.insert s.limitArg (.val (toString maxDoc)) else args

end OpenAPISource

/-! ### What a query string carries -/

/-- The values of a name in a query string. -/
def carried (query : UrlQuery.Bytes) (name : String) : List UrlQuery.Bytes :=
  ((UrlQuery.parse query).filter (·.1 = textBytes name)).map Prod.snd

theorem textBytes_inj {s t : String} : textBytes s = textBytes t ↔ s = t := by
  constructor
  · intro h
    exact String.toByteArray_inj.mp (ByteArray.ext (Array.toList_inj.mp h))
  · rintro rfl
    rfl

theorem carried_encode (q : Values) (name : String) :
    carried (Values.encode q) name = ((q.lookup name).getD []).map textBytes := by
  -- the values under one name are read back in their order, and no other name has a part in them
  have hkeys : ∀ ks : List String, ks.Nodup →
      ((ks.flatMap fun k => ((q.lookup k).getD []).map fun v => (textBytes k, textBytes v)).filter
        (·.1 = textBytes name)).map Prod.snd =
        if name ∈ ks then ((q.lookup name).getD []).map textBytes else [] := by
    intro ks hks
    induction ks with
    | nil => rfl
    | cons k ks ih =>
      obtain ⟨hk, hks⟩ := List.nodup_cons.mp hks
      rw [List.flatMap_cons, List.filter_append, List.map_append, ih hks]
      by_cases hname : k = name
      · subst hname
        have hall : (((q.lookup k).getD []).map fun v => (textBytes k, textBytes v)).filter (·.1 = textBytes k) =
            ((q.lookup k).getD []).map fun v => (textBytes k, textBytes v) := by
          rw [List.filter_eq_self]
          simp
        rw [hall, if_neg hk, if_pos List.mem_cons_self, List.append_nil, List.map_map]
        rfl
      · have hnone :
            (((q.lookup k).getD []).map fun v => (textBytes k, textBytes v)).filter (·.1 = textBytes name) = [] := by
          rw [List.filter_eq_nil_iff]
          simp [textBytes_inj, hname]
        rw [hnone]
        simp [Ne.symm hname]
  unfold carried Values.encode
  rw [UrlQuery.parse_encode, hkeys _ ((List.perm_insertionSort _ _).nodup_iff.mpr q.keys_nodup)]
  split_ifs with hmem
  · rfl
  · -- a name that is not stored is not carried
    have hnone : q.lookup name = none :=
      AList.lookup_eq_none.mpr fun h => hmem ((List.perm_insertionSort _ _).mem_iff.mpr h)
    rw [hnone]
    rfl

/-! ### What a call carries -/

section Call

variable (t : OpenAPITransport) {args : Args} {range : List (Σ _ : String, Arg)}

theorem forward_cons (a : Σ _ : String, Arg) (q : Values) : t.forward (a :: range) q =
    t.forward range (if a.1 = t.queryParam ∨ a.1 = "query" then q else Values.set q a.1 a.2.sprint) := rfl

/-- A name that is skipped, or is no argument, is not touched by the loop. -/
theorem lookup_forward_same {q : Values} {k : String}
    (h : ∀ a ∈ range, a.1 = k → k = t.queryParam ∨ k = "query") :
    (t.forward range q).lookup k = q.lookup k := by
  induction range generalizing q with
  | nil => rfl
  | cons a range ih =>
    rw [forward_cons, ih fun b hb => h b (List.mem_cons_of_mem a hb)]
    split_ifs with hskip
    · rfl
    · have hne : k ≠ a.1 := fun heq => hskip (heq ▸ h a List.mem_cons_self heq.symm)
      exact AList.lookup_insert_ne hne

theorem lookup_forward {q : Values} {k : String} {v : Arg} (hnodup : (range.map Sigma.fst).Nodup)
    (hmem : ⟨k, v⟩ ∈ range) (hk : ¬ (k = t.queryParam ∨ k = "query")) :
    (t.forward range q).lookup k = some [v.sprint] := by
  induction range generalizing q with
  | nil => cases hmem
  | cons a range ih =>
    obtain ⟨ha, hnodup⟩ := List.nodup_cons.mp hnodup
    rw [forward_cons]
    rcases List.mem_cons.mp hmem with rfl | hmem
    · rw [if_neg hk, lookup_forward_same]
      · exact AList.lookup_insert q
      · -- no other argument has this name
        intro b hb heq
        exact absurd (List.mem_map.mpr ⟨b, hb, heq⟩) ha
    · exact ih hnodup hmem

/-- **What the query string carries.** The argument of the query parameter, or else `query`, under the resolved name;
the other arguments but `query` under theirs; and what stood in the URL. -/
theorem carried_rawQuery (hrange : range.Perm args.entries) (k : String) :
    carried (t.rawQuery args range) k =
      if k = t.queryParam then
        [textBytes (if argOf args t.queryParam = .nil then argOf args "query" else argOf args t.queryParam).sprint]
      else if k = "query" then ((t.urlQuery.lookup k).getD []).map textBytes
      else match args.lookup k with
        | some v => [textBytes v.sprint]
        | none => ((t.urlQuery.lookup k).getD []).map textBytes := by
  have hnodup : (range.map Sigma.fst).Nodup := (hrange.map Sigma.fst).nodup_iff.mpr args.keys_nodup
  unfold OpenAPITransport.rawQuery
  rw [carried_encode]
  -- the query's own parameter is set last
  by_cases hparam : k = t.queryParam
  · subst hparam
    rw [if_pos rfl, lookup_forward_same t fun _ _ _ => .inl rfl, Values.set, AList.lookup_insert]
    rfl
  rw [if_neg hparam]
  -- an argument that is called `query` is not forwarded
  by_cases hquery : k = "query"
  · rw [if_pos hquery, lookup_forward_same t fun _ _ _ => .inr hquery, Values.set, AList.lookup_insert_ne hparam]
  · rw [if_neg hquery]
    have hskip : ¬ (k = t.queryParam ∨ k = "query") := not_or.mpr ⟨hparam, hquery⟩
    -- any other argument replaces the value of the URL
    cases hv : args.lookup k with
    | some v =>
      have hmem : ⟨k, v⟩ ∈ range := hrange.mem_iff.mpr (AList.mem_lookup_iff.mp hv)
      rw [lookup_forward t hnodup hmem hskip]
      rfl
    | none =>
      have hmissing : ∀ a ∈ range, a.1 = k → k = t.queryParam ∨ k = "query" := by
        rintro ⟨k', v⟩ ha rfl
        have hsome : args.lookup k' = some v := AList.mem_lookup_iff.mpr (hrange.mem_iff.mp ha)
        rw [hv] at hsome
        cases hsome
      rw [lookup_forward_same t hmissing, Values.set, AList.lookup_insert_ne hparam]

end Call

/-! ### Arguments and names -/

/-- The composed query is in the query string under the resolved parameter, and every other argument under its own
name: the configured ones, and the limit of a request that has one, in place of a configured limit. -/
structure Carries (s : OpenAPISource) (req : Request) (rawQuery : UrlQuery.Bytes) : Prop where
  query : carried rawQuery s.tr.queryParam = [textBytes (composeQuery req)]
  extra : ∀ k v, s.cfg.extraArgs.lookup k = some v → k ≠ s.tr.queryParam → (0 < req.maxDocs → k ≠ s.limitArg) →
    carried rawQuery k = [textBytes v.sprint]
  limit : 0 < req.maxDocs → carried rawQuery s.limitArg = [textBytes (toString req.maxDocs)]

/-- Every request of the source carries its arguments, in whatever order they are ranged over. -/
def CarriesAll (s : OpenAPISource) : Prop :=
  ∀ (req : Request) (range : List (Σ _ : String, Arg)), range.Perm (s.args req).entries →
    Carries s req (s.tr.rawQuery (s.args req) range)

/-- The names of a configuration agree with the resolved parameter: the query is sent where the transport looks for
it, the limit has a name of its own, and no argument is called `query`, unless its value stands in the URL. -/
structure Config.Agrees (cfg : Config) (tr : OpenAPITransport) : Prop where
  query : cfg.queryArg = "" ∨ cfg.queryArg = tr.queryParam ∨
    cfg.queryArg = "query" ∧ argOf cfg.extraArgs tr.queryParam = .nil
  limit : (OpenAPISource.new cfg tr).limitArg ≠ tr.queryParam ∧ (OpenAPISource.new cfg tr).limitArg ≠ "query"
  extra : tr.queryParam ≠ "query" → ∀ v, cfg.extraArgs.lookup "query" = some v →
    (tr.urlQuery.lookup "query").getD [] = [v.sprint]

section Names

variable {cfg : Config} {tr : OpenAPITransport}

theorem new_queryArg :
    (OpenAPISource.new cfg tr).cfg.queryArg = if cfg.queryArg = "" then tr.queryParam else cfg.queryArg := by
  show (if cfg.queryArg = "" then { cfg with queryArg := tr.queryParam } else cfg).queryArg = _
  split_ifs
  · rfl
  · rfl

theorem new_extraArgs : (OpenAPISource.new cfg tr).cfg.extraArgs = cfg.extraArgs := by
  show (if cfg.queryArg = "" then { cfg with queryArg := tr.queryParam } else cfg).extraArgs = _
  split_ifs
  · rfl
  · rfl

theorem new_queryArg_ne : (OpenAPISource.new cfg tr).cfg.queryArg ≠ "" := by
  rw [new_queryArg]
  split_ifs with h
  · exact tr.queryParam_ne
  · exact h

theorem limitArg_ne (s : OpenAPISource) : s.limitArg ≠ "" := by
  unfold OpenAPISource.limitArg
  split_ifs with h
  · exact h
  · -- each of the usual names is one
    cases hkey : ["max_docs", "limit", "top_k", "k", "count"].find? fun k => (s.cfg.extraArgs.lookup k).isSome with
    | none => decide
    | some key =>
      rintro (rfl : key = "")
      exact absurd (List.mem_of_find?_eq_some hkey) (by decide)

/-- **The arguments of a request**, by name. -/
theorem lookup_args (req : Request) (k : String) :
    ((OpenAPISource.new cfg tr).args req).lookup k =
      if 0 < req.maxDocs ∧ k = (OpenAPISource.new cfg tr).limitArg then some (.val (toString req.maxDocs))
      else if k = (OpenAPISource.new cfg tr).cfg.queryArg then some (.val (composeQuery req))
      else cfg.extraArgs.lookup k := by
  have hquery : ((OpenAPISource.new cfg tr).cfg.extraArgs.insert (OpenAPISource.new cfg tr).cfg.queryArg
      (.val (composeQuery req))).lookup k =
      if k = (OpenAPISource.new cfg tr).cfg.queryArg then some (.val (composeQuery req))
      else cfg.extraArgs.lookup k := by
    -- the query is put over the extra arguments
    split_ifs with h
    · rw [h, AList.lookup_insert]
    · rw [AList.lookup_insert_ne h, new_extraArgs]
  unfold OpenAPISource.args
  simp only [if_neg new_queryArg_ne]
  -- the limit is put in last, under another name than the query
  by_cases hdocs : 0 < req.maxDocs
  · rw [if_pos hdocs, if_pos ⟨hdocs, limitArg_ne _⟩]
    by_cases hk : k = (OpenAPISource.new cfg tr).limitArg
    · rw [if_pos ⟨hdocs, hk⟩, hk, AList.lookup_insert]
    · rw [if_neg fun h => hk h.2, AList.lookup_insert_ne hk, hquery]
  · rw [if_neg fun h => hdocs h.1, if_neg fun h => hdocs h.1, hquery]

variable {s : OpenAPISource} {range : List (Σ _ : String, Arg)}

/-- The value of the query parameter. -/
theorem carried_queryParam (req : Request) (hrange : range.Perm (s.args req).entries) :
    carried (s.tr.rawQuery (s.args req) range) s.tr.queryParam =
      [textBytes (if argOf (s.args req) s.tr.queryParam = .nil then argOf (s.args req) "query"
        else argOf (s.args req) s.tr.queryParam).sprint] := by
  rw [carried_rawQuery s.tr hrange, if_pos rfl]

/-- The values of `query`, where this is not the query parameter, are those in the URL. -/
theorem carried_query (req : Request) (hrange : range.Perm (s.args req).entries)
    (hparam : s.tr.queryParam ≠ "query") :
    carried (s.tr.rawQuery (s.args req) range) "query" = ((s.tr.urlQuery.lookup "query").getD []).map textBytes := by
  rw [carried_rawQuery s.tr hrange, if_neg (Ne.symm hparam), if_pos rfl]

/-- Any other argument is forwarded. -/
theorem carried_arg (req : Request) (hrange : range.Perm (s.args req).entries) {k : String} {v : Arg}
    (hv : (s.args req).lookup k = some v) (hparam : k ≠ s.tr.queryParam) (hquery : k ≠ "query") :
    carried (s.tr.rawQuery (s.args req) range) k = [textBytes v.sprint] := by
  rw [carried_rawQuery s.tr hrange, if_neg hparam, if_neg hquery, hv]

/-- Names that agree carry every argument. -/
theorem Config.Agrees.carries (h : cfg.Agrees tr) : CarriesAll (OpenAPISource.new cfg tr) := by
  intro req range hrange
  obtain ⟨hlimit, hlimit'⟩ := h.limit
  have harg : ∀ k, k ≠ (OpenAPISource.new cfg tr).limitArg → ((OpenAPISource.new cfg tr).args req).lookup k =
      if k = (OpenAPISource.new cfg tr).cfg.queryArg then some (.val (composeQuery req))
      else cfg.extraArgs.lookup k := by
    intro k hk
    rw [lookup_args, if_neg fun h => hk h.2]
  -- the query is found under the parameter, or else under `query`
  have hname : (OpenAPISource.new cfg tr).cfg.queryArg = tr.queryParam ∨
      (OpenAPISource.new cfg tr).cfg.queryArg = "query" ∧ argOf cfg.extraArgs tr.queryParam = .nil := by
    rw [new_queryArg]
    rcases h.query with hq | hq | ⟨hq, hnil⟩
    · exact .inl (if_pos hq)
    · rw [hq, if_neg tr.queryParam_ne]
      exact .inl rfl
    · rw [hq, if_neg (by decide)]
      exact .inr ⟨rfl, hnil⟩
  refine ⟨?_, ?_, ?_⟩
  · rw [carried_queryParam req hrange]
    show [textBytes (if argOf _ tr.queryParam = .nil then argOf _ "query" else argOf _ tr.queryParam).sprint] = _
    by_cases hq : (OpenAPISource.new cfg tr).cfg.queryArg = tr.queryParam
    · have hfound : argOf ((OpenAPISource.new cfg tr).args req) tr.queryParam = .val (composeQuery req) := by
        rw [argOf, harg _ (Ne.symm hlimit), if_pos hq.symm]
        rfl
      rw [hfound, if_neg Arg.noConfusion]
      rfl
    · obtain ⟨hquery, hnil⟩ := hname.resolve_left hq
      have hmissing : argOf ((OpenAPISource.new cfg tr).args req) tr.queryParam = .nil := by
        rw [argOf, harg _ (Ne.symm hlimit), if_neg (Ne.symm hq)]
        exact hnil
      have hfound : argOf ((OpenAPISource.new cfg tr).args req) "query" = .val (composeQuery req) := by
        rw [argOf, harg _ (Ne.symm hlimit'), if_pos hquery.symm]
        rfl
      rw [hmissing, if_pos rfl, hfound]
      rfl
  · intro k v hv hparam hk
    rw [new_extraArgs] at hv
    by_cases hquery : k = "query"
    · subst hquery
      have hurl : ((OpenAPISource.new cfg tr).tr.urlQuery.lookup "query").getD [] = [v.sprint] :=
        h.extra (Ne.symm hparam) v hv
      rw [carried_query req hrange (Ne.symm hparam), hurl]
      rfl
    · have hne : k ≠ (OpenAPISource.new cfg tr).cfg.queryArg := by
        rcases hname with heq | ⟨heq, -⟩
        · rwa [heq]
        · rwa [heq]
      have harg' : ((OpenAPISource.new cfg tr).args req).lookup k = some v := by
        rw [lookup_args, if_neg fun h => hk h.1 h.2, if_neg hne, hv]
      exact carried_arg req hrange harg' hparam hquery
  · intro hdocs
    have harg' : ((OpenAPISource.new cfg tr).args req).lookup (OpenAPISource.new cfg tr).limitArg =
        some (.val (toString req.maxDocs)) := by
      rw [lookup_args, if_pos ⟨hdocs, rfl⟩]
    exact carried_arg req hrange harg' hlimit hlimit'

/-- A request without terms and paths. -/
def plainRequest (query : String) (maxDocs : ℤ) : Request := ⟨query, [], [], maxDocs⟩

theorem composeQuery_x (maxDocs : ℤ) : composeQuery (plainRequest "x" maxDocs) = "x" := by
  show trimSpace (" ".intercalate (dedup ["x"])) = "x"
  decide +kernel

theorem composeQuery_y (maxDocs : ℤ) : composeQuery (plainRequest "y" maxDocs) = "y" := by
  show trimSpace (" ".intercalate (dedup ["y"])) = "y"
  decide +kernel

/-- A value that is the same for every query is not the query. -/
theorem CarriesAll.query_moves (h : CarriesAll s) (v : Arg)
    (hv : ∀ query, (if argOf (s.args (plainRequest query 0)) s.tr.queryParam = .nil
      then argOf (s.args (plainRequest query 0)) "query"
      else argOf (s.args (plainRequest query 0)) s.tr.queryParam) = v) : False := by
  have hx := (h (plainRequest "x" 0) _ (.refl _)).query
  have hy := (h (plainRequest "y" 0) _ (.refl _)).query
  rw [carried_queryParam _ (.refl _), hv, composeQuery_x] at hx
  rw [carried_queryParam _ (.refl _), hv, composeQuery_y] at hy
  exact absurd (hx.symm.trans hy) (by decide +kernel)

theorem CarriesAll.agrees (h : CarriesAll (OpenAPISource.new cfg tr)) : cfg.Agrees tr := by
  have harg : ∀ query k, ((OpenAPISource.new cfg tr).args (plainRequest query 0)).lookup k =
      if k = (OpenAPISource.new cfg tr).cfg.queryArg then some (.val (composeQuery (plainRequest query 0)))
      else cfg.extraArgs.lookup k := by
    intro query k
    rw [lookup_args, if_neg fun h => absurd h.1 (lt_irrefl 0)]
  refine ⟨?_, ⟨?_, ?_⟩, ?_⟩
  · by_contra hcon
    obtain ⟨hempty, hcon⟩ := not_or.mp hcon
    obtain ⟨hparam, hcon⟩ := not_or.mp hcon
    have hq : (OpenAPISource.new cfg tr).cfg.queryArg = cfg.queryArg := by rw [new_queryArg, if_neg hempty]
    have hfixed : ∀ query, argOf ((OpenAPISource.new cfg tr).args (plainRequest query 0)) tr.queryParam =
        argOf cfg.extraArgs tr.queryParam := by
      intro query
      rw [argOf, harg, hq, if_neg (Ne.symm hparam), argOf]
    by_cases hnil : argOf cfg.extraArgs tr.queryParam = .nil
    · -- then neither is it sent as `query`
      have hquery : "query" ≠ cfg.queryArg := fun heq => hcon ⟨heq.symm, hnil⟩
      refine h.query_moves (argOf cfg.extraArgs "query") fun query => ?_
      rw [show (OpenAPISource.new cfg tr).tr.queryParam = tr.queryParam from rfl, hfixed, if_pos hnil, argOf, harg, hq,
        if_neg hquery, argOf]
    · refine h.query_moves (argOf cfg.extraArgs tr.queryParam) fun query => ?_
      rw [show (OpenAPISource.new cfg tr).tr.queryParam = tr.queryParam from rfl, hfixed, if_neg hnil]
  · intro heq
    have hquery := (h (plainRequest "x" 1) _ (.refl _)).query
    have hlimit := (h (plainRequest "x" 1) _ (.refl _)).limit (by decide)
    rw [heq] at hlimit
    rw [composeQuery_x] at hquery
    exact absurd (hquery.symm.trans hlimit) (by decide +kernel)
  · intro heq
    have hone := (h (plainRequest "x" 1) _ (.refl _)).limit (by decide)
    have htwo := (h (plainRequest "x" 2) _ (.refl _)).limit (by decide)
    have hparam : tr.queryParam ≠ "query" := by
      intro hparam
      have hquery := (h (plainRequest "x" 1) _ (.refl _)).query
      rw [show (OpenAPISource.new cfg tr).tr.queryParam = "query" from hparam, composeQuery_x, ← heq] at hquery
      exact absurd (hquery.symm.trans hone) (by decide +kernel)
    -- what stands in the URL is the same for both
    rw [heq, carried_query _ (.refl _) hparam] at hone htwo
    exact absurd (hone.symm.trans htwo) (by decide +kernel)
  · intro hparam v hv
    have hextra := (h (plainRequest "x" 0) _ (.refl _)).extra "query" v (new_extraArgs.symm ▸ hv) (Ne.symm hparam)
      fun hdocs => absurd hdocs (lt_irrefl 0)
    rw [carried_query _ (.refl _) hparam, ← List.map_singleton] at hextra
    exact List.map_injective_iff.mpr (fun _ _ => textBytes_inj.mp) hextra

end Names

/-- **Every argument is carried** by all requests of a source exactly when the names of its configuration agree with
the resolved parameter. -/
theorem arguments_carried_iff (cfg : Config) (tr : OpenAPITransport) :
    CarriesAll (OpenAPISource.new cfg tr) ↔ cfg.Agrees tr :=
  ⟨CarriesAll.agrees, Config.Agrees.carries⟩

/-- A configuration that calls the argument `text`, for a specification that calls it `q`. -/
def textCfg : Config := ⟨"text", "", ∅, 0⟩

def qTransport : OpenAPITransport := ⟨∅, "q", by decide⟩

/-- **The query does not reach the parameter.** The request asks for `<nil>`. -/
theorem query_under_configured_name :
    (OpenAPISource.new textCfg qTransport).tr.rawQuery ((OpenAPISource.new textCfg qTransport).args
      (plainRequest "login" 0)) [⟨"text", .val "login"⟩] = textBytes "q=%3Cnil%3E&text=login" ∧
    ¬ CarriesAll (OpenAPISource.new textCfg qTransport) := by
  have hraw : (OpenAPISource.new textCfg qTransport).tr.rawQuery ((OpenAPISource.new textCfg qTransport).args
      (plainRequest "login" 0)) [⟨"text", .val "login"⟩] = textBytes "q=%3Cnil%3E&text=login" := by
    decide +kernel
  refine ⟨hraw, fun h => ?_⟩
  have hquery := (h (plainRequest "login" 0) [⟨"text", .val "login"⟩] (by decide +kernel)).query
  rw [hraw] at hquery
  exact absurd hquery (by decide +kernel)

end Devrouter.McpSource
