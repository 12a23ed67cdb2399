import ProtoIdl.Proofs.Recovery.Elements
/-!
# Bodies and files are read back

A body is read back up to places if it has no comments (`body_reads`). The proof follows the nesting
of bodies: `ReadsBack body n` says that `body` reads back everything between curly brackets that has
fewer than `n` characters, and the body of a block has fewer characters than the block. Within a body
the loop takes one element in every round.
-/
namespace ProtoIdl

open Spelling
open Grammar (Scope Production)

variable {σ : Style} {scope : Scope} {e : Element} {es ds : List Element} {ws : List String}

/-! ## Trees without places -/

namespace Element

@[simp]
theorem eraseAll_nil : eraseAll [] = [] := by rw [eraseAll]

@[simp]
theorem eraseAll_cons (e : Element) (es : List Element) :
    eraseAll (e :: es) = e.erase :: eraseAll es := by rw [eraseAll]

theorem eraseAll_append (es ds : List Element) :
    eraseAll (es ++ ds) = eraseAll es ++ eraseAll ds := by
  induction es with
  | nil => simp
  | cons e es ih => simp [ih]

@[simp]
theorem wordsAll_nil : wordsAll σ [] = [] := by rw [wordsAll]

@[simp]
theorem wordsAll_cons (e : Element) (es : List Element) :
    wordsAll σ (e :: es) = e.words σ ++ wordsAll σ es := by rw [wordsAll]

end Element

/-- Without comments only the place remains. -/
theorem Notes.erase_eq {n : Notes} (h : n.comments = []) : n.erase = {} := by
  obtain ⟨leading, inline, extent⟩ := n
  obtain ⟨rfl, hinline⟩ := List.append_eq_nil_iff.1 h
  cases inline with
  | none => rfl
  | some c => cases hinline

/-- A block is a head and a body in curly brackets; an rpc without a body may end with a
semicolon. -/
theorem Element.block_words (σ : Style) (head : Head) (body : List Element) (curly : Option Comment)
    (notes : Notes) :
    (∃ r, head = .rpc r ∧ body = [] ∧
      (Element.block head body curly notes).words σ = head.words σ ++ [";"]) ∨
    (Element.block head body curly notes).words σ =
      head.words σ ++ "\x7b" :: Element.wordsAll σ body ++ ["\x7d"] := by
  rw [Element.words]
  by_cases hbrief : (body.isEmpty && head.isBrief σ) = true
  · rw [if_pos hbrief]
    rw [Bool.and_eq_true, List.isEmpty_iff] at hbrief
    cases head with
    | rpc r => exact .inl ⟨r, rfl, hbrief.1, rfl⟩
    | oneof name | enum name | extend name | message name | service name => cases hbrief.2
  · rw [if_neg hbrief]
    exact .inr (by rw [List.append_assoc])

theorem File.words_of_none {f : File} (hv : f.version = none) :
    f.words σ = Element.wordsAll σ f.body := by
  rw [words, elements, hv]
  rfl

theorem File.words_of_some {f : File} {v : Noted Version} (hv : f.version = some v) :
    f.words σ = Statement.words σ (.version v.item) ++ ";" :: Element.wordsAll σ f.body := by
  rw [words, elements, hv, Option.map_some, Option.toList_some, List.singleton_append,
    Element.wordsAll_cons, Element.words, List.append_assoc]
  rfl

/-- The characters of the body are among those of the block. -/
theorem Element.ink_body (σ : Style) (head : Head) (body : List Element)
    (curly : Option Comment) (notes : Notes) :
    ink (wordsAll σ body) < ink ((Element.block head body curly notes).words σ) := by
  rcases Element.block_words σ head body curly notes with ⟨r, rfl, rfl, hwords⟩ | hwords
  · have := (shows_ident (isIdent_keyword .kwRpc)).ink_pos []
    rw [hwords, wordsAll_nil, ink_append]
    change 0 < ink (Keyword.kwRpc.word :: _) + _
    rw [ink_cons] at this ⊢
    omega
  · have := (Delimiter.spells_symbol (d := .leftBrace) nofun).shows.ink_pos []
    rw [hwords, ink_append, ink_append]
    change _ < _ + ink (Delimiter.leftBrace.symbol :: _) + _
    rw [ink_cons] at this ⊢
    omega

/-- What an element is read as. -/
def Element.production? : Element → Option Production
  | .statement s _ => some s.production
  | .block head _ _ _ => some head.production
  | .comment _ | .fragment _ | .file _ _ => none

theorem Element.ink_pos (σ : Style) {p : Production} (h : e.production? = some p) :
    0 < ink (e.words σ) := by
  cases e with
  | statement s notes =>
    have := (Delimiter.spells_symbol (d := .semicolon) nofun).shows.ink_pos []
    rw [words, ink_append]
    exact Nat.add_pos_right _ this
  | block head body curly notes => exact Nat.zero_lt_of_lt (ink_body σ head body curly notes)
  | comment c => cases h
  | fragment f => cases h
  | file v body => cases h

/-- The elements can be read back, and have fewer than `n` characters. -/
structure Writable (σ : Style) (scope : Scope) (n : Nat) (es : List Element) : Prop where
  wellFormed : Element.areWellFormed scope es = true
  comments : Element.commentsAll es = []
  ink_lt : ink (Element.wordsAll σ es) < n

theorem Writable.tail {n : Nat} (h : Writable σ scope n (e :: es)) : Writable σ scope n es := by
  obtain ⟨hwf, hc, hn⟩ := h
  rw [Element.areWellFormed, Bool.and_eq_true] at hwf
  rw [Element.commentsAll_cons, List.append_eq_nil_iff] at hc
  rw [Element.wordsAll_cons, ink_append] at hn
  exact ⟨hwf.2, hc.2, by omega⟩

theorem Writable.body {n : Nat} {head : Head} {body : List Element} {curly : Option Comment}
    {notes : Notes} (h : Writable σ scope (n + 1) (.block head body curly notes :: es)) :
    Writable σ head.scope n body := by
  obtain ⟨hwf, hc, hn⟩ := h
  rw [Element.areWellFormed, Element.isWellFormed] at hwf
  simp only [Bool.and_eq_true] at hwf
  rw [Element.commentsAll_cons, Element.comments] at hc
  simp only [List.append_eq_nil_iff] at hc
  have := Element.ink_body σ head body curly notes
  rw [Element.wordsAll_cons, ink_append] at hn
  exact ⟨hwf.1.2, hc.1.2, by omega⟩

/-- An element starts with words that tell what it is. -/
theorem Writable.begins {n : Nat} (h : Writable σ scope n (e :: es)) (ws : List String) :
    ∃ p, e.production? = some p ∧ Begins scope p (e.words σ ++ ws) := by
  have hwf := h.wellFormed
  rw [Element.areWellFormed, Bool.and_eq_true] at hwf
  obtain ⟨he, -⟩ := hwf
  cases e with
  | statement s notes =>
    rw [Element.isWellFormed, Bool.and_eq_true] at he
    rw [Element.words, List.append_assoc]
    exact ⟨_, rfl, statement_begins σ he.1 he.2 ws⟩
  | block head body curly notes =>
    simp only [Element.isWellFormed, Bool.and_eq_true] at he
    rw [Element.words, List.append_assoc]
    exact ⟨_, rfl, head_begins σ he.1.1 _⟩
  | comment c => simp [Element.isWellFormed] at he
  | fragment f => simp [Element.isWellFormed] at he
  | file v body => simp [Element.isWellFormed] at he

/-- No comment stands in front of the elements. -/
theorem Writable.bare {n : Nat} (h : Writable σ scope n es) (hb : (front ws).head? ≠ some '/') :
    (front (Element.wordsAll σ es ++ ws)).head? ≠ some '/' := by
  cases es with
  | nil => rwa [Element.wordsAll_nil, List.nil_append]
  | cons e es =>
    obtain ⟨p, -, hp⟩ := h.begins (Element.wordsAll σ es ++ ws)
    rw [Element.wordsAll_cons, List.append_assoc]
    exact hp.bare

theorem front_nil_bare : (front []).head? ≠ some '/' := (lexes_eof .plain rfl).bare

namespace Grammar

open Reading

/-! ## Heads -/

theorem rpcType_yields (σ : Style) {t : RpcType} (h : t.isWellFormed = true) (ws : List String) :
    Yields rpcType (t.words σ ++ ws) fun a ws' =>
      (∃ x : Extent, a = { t with extent := x }) ∧ ws' = ws := by
  obtain ⟨type, isStream, extent⟩ := t
  rw [RpcType.isWellFormed, Bool.and_eq_true] at h
  obtain ⟨htype, hstream⟩ := h
  have hfirst (hs : isStream = false) : startsWith ["stream"] (nameTokens type) = false := by
    simpa [hs] using hstream
  have hwords : RpcType.words σ ⟨type, isStream, extent⟩ ++ ws = "(" ::
      ((if isStream then ["stream"] else []) ++ glue σ.loose (nameTokens type) (")" :: ws)) := by
    rw [← σ.name_append, RpcType.words]
    simp
  rw [hwords, rpcType_eq]
  refine (symbol_yields (d := .leftParen) nofun _ _).bind ?_
  rintro _ _ rfl
  refine optionalType_yields (k := .kwStream) htype hfirst ?_
  rintro first rfl
  refine (messageType_yields htype (next_symbol (d := .rightParen) nofun ws) nofun).bind ?_
  rintro ⟨_, start⟩ _ ⟨rfl, rfl⟩
  rw [join_nameTokens]
  refine yields_position_bind fun last => (symbol_yields (d := .rightParen) nofun _ ws).bind ?_
  rintro _ _ rfl
  exact yields_pure ⟨⟨_, rfl⟩, rfl⟩

/-! ## Blocks -/

/-- `body` reads back what has fewer than `n` characters between the curly brackets. -/
def ReadsBack (σ : Style) (body : Scope → Reading Body) (n : Nat) : Prop :=
  ∀ scope es ws, Writable σ scope n es →
    Yields (body scope) ("\x7b" :: Element.wordsAll σ es ++ "\x7d" :: ws) fun b ws' =>
      (Element.eraseAll b.elements = Element.eraseAll es ∧ b.behindCurly = none) ∧ ws' = ws

/-- The element has this head and this body, up to places, and no comments of its own. -/
def IsBlock (head : Head) (body : List Element) (e : Element) : Prop :=
  ∃ head' body' x, e = .block head' body' none { extent := x } ∧ head'.erase = head.erase ∧
    Element.eraseAll body' = Element.eraseAll body

section
variable {body : Scope → Reading Body} {n : Nat} {head : Head}

theorem block_yields (hbody : ReadsBack σ body n) (head head' : Head)
    (hes : Writable σ head.scope n es) (hhead : head'.erase = head.erase) (start : Position)
    (ws : List String) :
    Yields (block body head.scope head' start)
      ("\x7b" :: Element.wordsAll σ es ++ "\x7d" :: ws) fun e ws' =>
        IsBlock head es e ∧ ws' = ws := by
  refine (hbody _ _ _ hes).bind ?_
  rintro ⟨elements, behindCurly, last⟩ _ ⟨⟨helements, hcurly⟩, rfl⟩
  obtain rfl : behindCurly = none := hcurly
  exact yields_pure ⟨⟨head', elements, _, rfl, hhead, helements⟩, rfl⟩

theorem named_yields (hbody : ReadsBack σ body n) (hes : Writable σ head.scope n es) (k : Keyword)
    {name expected : String} (hname : isIdent name.toList = true) {scope : Scope}
    (wrap : String → Head) (hhead : wrap name = head) (hscope : head.scope = scope)
    (ws : List String) :
    Yields (do
      let start ← expectKeyword k
      block body scope (wrap (← expectIdent expected)) start)
      (k.word :: name :: ("\x7b" :: Element.wordsAll σ es ++ "\x7d" :: ws)) fun e ws' =>
        IsBlock head es e ∧ ws' = ws := by
  subst hscope
  refine (keyword_yields k _).bind ?_
  rintro start _ rfl
  refine (ident_yields hname _ _).bind ?_
  rintro _ _ ⟨rfl, rfl⟩
  exact block_yields hbody head _ hes (by rw [hhead]) start ws

/-- What comes behind the types of an rpc: a body, or a semicolon if there is none. -/
theorem rpc_yields {r : Rpc} (hbody : ReadsBack σ body n) (hes : Writable σ .rpc n es)
    (hr : (Head.rpc r).isWellFormed = true) {vs : List String} (ws : List String)
    (hvs : es = [] ∧ vs = ";" :: ws ∨ vs = "\x7b" :: Element.wordsAll σ es ++ "\x7d" :: ws) :
    Yields (rpc body) (Head.words σ (.rpc r) ++ vs) fun e ws' =>
      IsBlock (.rpc r) es e ∧ ws' = ws := by
  obtain ⟨name, request, response⟩ := r
  simp only [Head.isWellFormed, Bool.and_eq_true] at hr
  obtain ⟨⟨hname, hrequest⟩, hresponse⟩ := hr
  have hwords : Head.words σ (.rpc ⟨name, request, response⟩) ++ vs = "rpc" :: name ::
      (request.words σ ++ "returns" :: (response.words σ ++ vs)) := by
    rw [Head.words]
    simp
  rw [hwords]
  refine (keyword_yields .kwRpc _).bind ?_
  rintro start _ rfl
  refine (ident_yields hname _ _).bind ?_
  rintro name _ ⟨rfl, rfl⟩
  refine (rpcType_yields σ hrequest _).bind ?_
  rintro _ _ ⟨⟨x, rfl⟩, rfl⟩
  refine (keyword_yields .kwReturns _).bind ?_
  rintro _ _ rfl
  refine (rpcType_yields σ hresponse _).bind ?_
  rintro _ _ ⟨⟨y, rfl⟩, rfl⟩
  rcases hvs with ⟨rfl, rfl⟩ | rfl
  · refine yields_next_bind rfl (lexes_symbol (d := .semicolon) nofun rfl rfl ws) fun r _ hr _ => ?_
    exact sat_position_bind (sat_pure ⟨ws, hr, ⟨_, [], _, rfl, rfl, rfl⟩, rfl⟩)
  · have hl : Lexes .plain ("\x7b" :: Element.wordsAll σ es ++ "\x7d" :: ws)
        (.delimiter .leftBrace) _ _ := lexes_symbol (d := .leftBrace) nofun rfl rfl _
    refine yields_next_bind rfl hl fun r hr _ _ => ?_
    refine (hr.putBack rfl hl.bare).bind fun _ r' hr' => ?_
    refine block_yields hbody (.rpc ⟨name, request, response⟩) _ hes ?_ start ws r' hr'
    rfl

/-- Every block is read back from the words of its head and of its body. -/
theorem blockWords_yields (opts : Options) (hbody : ReadsBack σ body n)
    (hes : Writable σ head.scope n es) (hhead : head.isWellFormed = true)
    (curly : Option Comment) (notes : Notes) (ws : List String) :
    Yields (declaration opts body head.production)
      ((Element.block head es curly notes).words σ ++ ws) fun e ws' =>
        IsBlock head es e ∧ ws' = ws := by
  rcases Element.block_words σ head es curly notes with ⟨r, rfl, rfl, hwords⟩ | hwords
  · rw [hwords, List.append_assoc]
    exact rpc_yields hbody hes hhead ws (.inl ⟨rfl, rfl⟩)
  · have hwords' : (Element.block head es curly notes).words σ ++ ws =
        head.words σ ++ ("\x7b" :: Element.wordsAll σ es ++ "\x7d" :: ws) := by
      rw [hwords]
      simp
    rw [hwords']
    cases head with
    | oneof name => exact named_yields hbody hes .kwOneof hhead .oneof rfl rfl ws
    | enum name => exact named_yields hbody hes .kwEnum hhead .enum rfl rfl ws
    | message name => exact named_yields hbody hes .kwMessage hhead .message rfl rfl ws
    | service name => exact named_yields hbody hes .kwService hhead .service rfl rfl ws
    | rpc r => exact rpc_yields hbody hes hhead ws (.inr rfl)
    | extend type =>
      have hbrace := next_symbol (d := .leftBrace) nofun (Element.wordsAll σ es ++ "\x7d" :: ws)
      have hextend : Head.words σ (.extend type) ++
          ("\x7b" :: Element.wordsAll σ es ++ "\x7d" :: ws) = "extend" ::
            glue σ.loose (nameTokens type) ("\x7b" :: Element.wordsAll σ es ++ "\x7d" :: ws) := by
        rw [← σ.name_append, Head.words]
        rfl
      rw [hextend]
      refine (keyword_yields .kwExtend _).bind ?_
      rintro start _ rfl
      refine (messageType_yields hhead hbrace nofun).bind ?_
      rintro ⟨_, _⟩ _ ⟨rfl, rfl⟩
      rw [join_nameTokens]
      exact block_yields hbody (.extend type) (.extend type) hes rfl start ws

end

/-! ## Bodies -/

/-- Of the elements `all` those in `done` are read; the words left are those of the others, and
`stop`. -/
def Remains (σ : Style) (scope : Scope) (n : Nat) (all : List Element) (stop : List String)
    (done : List Element) (ws : List String) : Prop :=
  ∃ es, Writable σ scope n es ∧ Element.eraseAll (done ++ es) = Element.eraseAll all ∧
    ws = Element.wordsAll σ es ++ stop

section
variable {nested : Scope → Reading Body} {n : Nat} {all done : List Element} {stop : List String}
  (opts : Options) (hnested : ReadsBack σ nested n)
include hnested

/-- An element is read back, and no comments are attached to it. -/
theorem element_reads (h : Writable σ scope (n + 1) (e :: es)) {p : Production}
    (hp : e.production? = some p) (keep : Bool) (hb : (front ws).head? ≠ some '/') :
    Yields (element opts nested keep [] p) (e.words σ ++ ws) fun ds ws' =>
      Element.eraseAll ds = [e.erase] ∧ ws' = ws := by
  have hwf := h.wellFormed
  have hc := h.comments
  rw [Element.areWellFormed, Bool.and_eq_true] at hwf
  rw [Element.commentsAll_cons, List.append_eq_nil_iff] at hc
  have herase : Yields (element opts nested keep [] p) (e.words σ ++ ws) fun ds ws' =>
      (∃ d : Element, ds = [d] ∧ d.erase = e.erase) ∧ ws' = ws := by
    refine element_yields hb opts keep ?_
    cases e with
    | statement s notes =>
      obtain rfl := Option.some.inj hp
      rw [Element.isWellFormed, Bool.and_eq_true] at hwf
      rw [Element.comments] at hc
      rw [Element.words, List.append_assoc]
      refine (statement_yields σ opts nested hwf.1.1 hwf.1.2 ws).mono ?_
      rintro _ _ ⟨⟨x, rfl⟩, rfl⟩
      refine ⟨⟨?_, x, rfl⟩, rfl⟩
      rw [Element.erase, Element.erase, Notes.erase_eq hc.1]
      rfl
    | block head body curly notes =>
      obtain rfl := Option.some.inj hp
      simp only [Element.isWellFormed, Bool.and_eq_true] at hwf
      simp only [Element.comments, List.append_eq_nil_iff] at hc
      obtain rfl : curly = none := Option.toList_eq_nil_iff.1 hc.1.1.2
      refine (blockWords_yields opts hnested h.body hwf.1.1.2 none notes ws).mono ?_
      rintro _ _ ⟨⟨head', body', x, rfl, hhead, hbody⟩, rfl⟩
      refine ⟨⟨?_, x, rfl⟩, rfl⟩
      rw [Element.erase, Element.erase, Notes.erase_eq hc.1.1.1, hhead, hbody]
      rfl
    | comment c => cases hp
    | fragment f => cases hp
    | file v body => cases hp
  refine herase.mono ?_
  rintro _ _ ⟨⟨d, rfl, hd⟩, rfl⟩
  exact ⟨by rw [Element.eraseAll_cons, Element.eraseAll_nil, hd], rfl⟩

/-- With an element a round takes its words, and there are some. -/
theorem element_remains (h : Writable σ scope (n + 1) (e :: es))
    (hall : Element.eraseAll (done ++ e :: es) = Element.eraseAll all) {p : Production}
    (hp : e.production? = some p) (keep : Bool) (hstop : (front stop).head? ≠ some '/') :
    Yields (element opts nested keep [] p) (e.words σ ++ (Element.wordsAll σ es ++ stop))
      fun ds ws' => Remains σ scope (n + 1) all stop (done ++ ds) ws' ∧
        ink ws' < ink (e.words σ ++ (Element.wordsAll σ es ++ stop)) := by
  refine (element_reads opts hnested h hp keep (h.tail.bare hstop)).mono ?_
  rintro ds _ ⟨hds, rfl⟩
  refine ⟨⟨es, h.tail, ?_, rfl⟩, ?_⟩
  · rw [← hall]
    simp [Element.eraseAll_append, hds]
  · have := e.ink_pos σ hp
    rw [ink_append (e.words σ)]
    omega

/-- One round takes an element, and the last one the closing bracket. -/
theorem bodyRound_yields
    (h : Remains σ scope (n + 1) all ("\x7d" :: stop) done ws) :
    Yields (bodyRound opts nested scope none done) ws
      (Round.Meets (fun done' ws' =>
          Remains σ scope (n + 1) all ("\x7d" :: stop) done' ws' ∧ ink ws' < ink ws)
        fun b ws' => (Element.eraseAll b.elements = Element.eraseAll all ∧ b.behindCurly = none) ∧
          ws' = stop) := by
  obtain ⟨es, h, hall, rfl⟩ := h
  have hclose (mode : Mode) (hn : mode.numbers = false) (hs : mode.strings = false) :
      Lexes mode ("\x7d" :: stop) (.delimiter .rightBrace) "\x7d" stop :=
    lexes_symbol (d := .rightBrace) nofun hn hs stop
  have hstop := (hclose .plain rfl rfl).bare
  refine (commentsAhead_yields (h.bare hstop)).bind ?_
  rintro _ _ ⟨rfl, rfl⟩
  cases es with
  | nil =>
    rw [Element.wordsAll_nil, List.nil_append]
    rw [List.append_nil] at hall
    refine (peek_yields rfl (hclose .keyword rfl rfl)).bind ?_
    rintro _ _ ⟨rfl, rfl⟩
    refine yields_next_bind rfl (hclose .plain rfl rfl) fun r _ hr _ => sat_position_bind ?_
    refine sat_pure ⟨stop, hr, ⟨?_, rfl⟩, rfl⟩
    rw [← hall]
    dsimp only
    split
    · rw [List.map_nil, List.append_nil]
    · rfl
  | cons e es =>
    rw [Element.wordsAll_cons, List.append_assoc]
    obtain ⟨p, hp, kind, w, rest, hl, hleads, hprod⟩ := h.begins _
    refine (peek_yields rfl hl).bind ?_
    rintro _ _ ⟨rfl, rfl⟩
    have hread := element_remains opts hnested h hall hp opts.keepComments hstop
    split
    · cases hleads
    · cases hleads
    · rw [hprod]
      exact hread.bind fun ds ws' h' => yields_pure h'

/-- Everything between the curly brackets is read back. -/
theorem bodyWith_reads : ReadsBack σ (bodyWith opts nested) (n + 1) := by
  intro scope es ws h
  refine (symbol_yields (d := .leftBrace) nofun _ _).bind ?_
  rintro _ _ rfl
  have hclose : Lexes .plain ("\x7d" :: ws) (.delimiter .rightBrace) "\x7d" ws :=
    lexes_symbol (d := .rightBrace) nofun rfl rfl ws
  refine yields_position_bind fun place => (commentBehind_yields (h.bare hclose.bare) place).bind ?_
  rintro _ _ ⟨rfl, rfl⟩
  exact yields_repeatFrom (I := Remains σ scope (n + 1) es ("\x7d" :: ws)) ⟨es, h, rfl, rfl⟩
    fun done ws' h => bodyRound_yields opts hnested h

end

theorem bodyAtMost_reads (opts : Options) (n : Nat) : ReadsBack σ (bodyAtMost opts n) n := by
  induction n with
  | zero =>
    intro scope es ws h
    exact absurd h.ink_lt (Nat.not_lt_zero _)
  | succ n ih => exact bodyWith_reads opts ih

/-- There are enough rounds for the nesting of any body. -/
theorem body_reads (opts : Options) (n : Nat) : ReadsBack σ (body opts) n := by
  intro scope es ws h _ hr
  refine sat_get.bind ?_
  rintro _ r ⟨rfl, rfl⟩
  have hink : ink (Element.wordsAll σ es) < r.rounds := by
    refine Nat.lt_of_le_of_lt ?_ (Nat.lt_of_lt_of_le hr.ink_lt (Nat.le_add_right _ 4))
    simp only [ink_append, ink_cons, List.cons_append]
    omega
  exact bodyAtMost_reads opts _ scope es ws ⟨h.wellFormed, h.comments, hink⟩ r hr

/-! ## Files -/

/-- The version of the file is read, and some of its elements; the words are those of the others. -/
def FileRemains (σ : Style) (n : Nat) (f g : File) (ws : List String) : Prop :=
  (g.version.map fun v => { v with notes := v.notes.erase }) =
    (f.version.map fun v => { v with notes := v.notes.erase }) ∧
    Remains σ .file n f.body [] g.body ws

section
variable (opts : Options) {f g : File} {n : Nat}

/-- One round takes an element; the last one is at the end of the text. -/
theorem fileRound_yields (h : FileRemains σ (n + 1) f g ws) :
    Yields (fileRound opts g) ws
      (Round.Meets (fun g' ws' => FileRemains σ (n + 1) f g' ws' ∧ ink ws' < ink ws)
        fun g' _ => g'.erase = f.erase) := by
  obtain ⟨hversion, es, h, hall, rfl⟩ := h
  refine (commentsAhead_yields (h.bare front_nil_bare)).bind ?_
  rintro _ _ ⟨rfl, rfl⟩
  cases es with
  | nil =>
    rw [List.append_nil] at hall
    refine (peek_yields rfl (lexes_eof .keyword rfl)).bind ?_
    rintro _ _ ⟨rfl, rfl⟩
    refine yields_pure ?_
    change File.erase { g with body := g.body ++ [] } = f.erase
    rw [List.append_nil]
    simp only [File.erase, hversion, hall]
  | cons e es =>
    rw [Element.wordsAll_cons, List.append_assoc]
    obtain ⟨p, hp, kind, w, rest, hl, hleads, hprod⟩ := h.begins _
    refine (peek_yields rfl hl).bind ?_
    rintro _ _ ⟨rfl, rfl⟩
    have hread := element_remains opts (body_reads opts n) h hall hp true front_nil_bare
    split
    · cases hleads
    · cases hleads
    · cases hprod
    · rw [hprod]
      exact hread.bind fun ds ws' h' => yields_pure ⟨⟨hversion, h'.1⟩, h'.2⟩

/-- The version is read where nothing was read before. -/
theorem versionRound_yields {v : Noted Version} (hv : v.item.text = "proto3")
    (hb : (front ws).head? ≠ some '/') :
    Yields (fileRound opts {}) (Statement.words σ (.version v.item) ++ ";" :: ws)
      fun x ws' => (∃ y : Extent, x = .again { version := some ⟨v.item, { extent := y }⟩ }) ∧
        ws' = ws := by
  obtain ⟨⟨text⟩, notes⟩ := v
  obtain rfl : text = "proto3" := hv
  have hl : Lexes .keyword (Statement.words σ (.version { text := "proto3" }) ++ ";" :: ws)
      (.keyword .kwSyntax) _ _ := lexes_keyword .kwSyntax _
  refine (commentsAhead_yields hl.bare).bind ?_
  rintro _ _ ⟨rfl, rfl⟩
  refine (peek_yields rfl hl).bind ?_
  rintro _ _ ⟨rfl, rfl⟩
  dsimp only
  rw [if_neg (by simp)]
  refine (version_yields σ ws).bind ?_
  rintro _ _ ⟨⟨x, rfl⟩, rfl⟩
  refine (attach_yields hb x).bind ?_
  rintro ⟨_, _⟩ _ ⟨⟨rfl, rfl⟩, rfl⟩
  exact yields_pure ⟨⟨x, rfl⟩, rfl⟩

/-- A file is read back up to places. -/
theorem file_yields (hf : f.isWellFormed = true) (hc : f.comments = []) :
    Yields (file opts) (f.words σ) fun g _ => g.erase = f.erase := by
  rw [File.isWellFormed, Bool.and_eq_true] at hf
  rw [File.comments, File.elements, Element.commentsAll_append, List.append_eq_nil_iff] at hc
  obtain ⟨hversion, hbody⟩ := hf
  obtain ⟨hnotes, hcomments⟩ := hc
  have hes : Writable σ .file (ink (Element.wordsAll σ f.body) + 1) f.body :=
    ⟨hbody, hcomments, Nat.lt_succ_self _⟩
  -- what is left are the elements that are not read, and at the start the version before them
  cases hv : f.version with
  | none =>
    rw [File.words_of_none hv, ← List.append_nil (Element.wordsAll σ f.body)]
    exact yields_repeatFrom (I := FileRemains σ _ f) ⟨by rw [hv], f.body, hes, rfl, rfl⟩
      fun g ws h => fileRound_yields opts h
  | some v =>
    have herase : v.notes.erase = {} := by
      rw [hv, Option.map_some, Option.toList_some, Element.commentsAll_cons, Element.comments,
        List.append_eq_nil_iff] at hnotes
      exact Notes.erase_eq hnotes.1
    have htext : v.item.text = "proto3" := by simpa [hv] using hversion
    refine yields_repeatFrom (I := fun g ws => g = {} ∧ ws = f.words σ ∨
      FileRemains σ (ink (Element.wordsAll σ f.body) + 1) f g ws) (.inl ⟨rfl, rfl⟩) ?_
    rintro g ws (⟨rfl, rfl⟩ | h)
    · have hbare := hes.bare front_nil_bare
      rw [List.append_nil] at hbare
      rw [File.words_of_some hv]
      refine (versionRound_yields opts htext hbare).mono ?_
      rintro _ _ ⟨⟨x, rfl⟩, rfl⟩
      refine ⟨.inr ⟨?_, f.body, hes, rfl, (List.append_nil _).symm⟩, ?_⟩
      · rw [hv, Option.map_some, Option.map_some, herase]
        rfl
      · have := (Delimiter.spells_symbol (d := .semicolon) nofun).shows.ink_pos
          (Element.wordsAll σ f.body)
        rw [ink_append (Statement.words σ _)]
        exact Nat.lt_of_lt_of_le this (Nat.le_add_left _ _)
    · refine (fileRound_yields opts h).mono ?_
      rintro (g' | g') ws' h'
      · exact ⟨.inr h'.1, h'.2⟩
      · exact h'

end

end Grammar

end ProtoIdl
