import ProtoIdl.Proofs.Grammar.Footing
import ProtoIdl.Proofs.Grammar.Head
import ProtoIdl.Proofs.Grammar.Landing
import ProtoIdl.Proofs.Token.Stop
/-!
# Where declarations end

Every declaration ends with a semicolon or a closing curly, and that is the last token that its reader
reads: `Reader.Landed`. So a round of a file either sees the end of the text or lands behind a stop
(`Grammar.fileHead_lands`).
-/
namespace ProtoIdl

namespace Reader

/-- The token read last starts behind `e`. -/
structure Behind (e : Cursor) (r : Reader) : Prop extends Stands r where
  mark_reached : e.Reaches r.mark

/-- The token read last starts behind `e` and is a stop. -/
structure Landed (e : Cursor) (r : Reader) : Prop extends Behind e r where
  stop : ∃ x more, r.mark.rest = x :: more ∧ Seam.isStop x = true
  edge : r.edge = r.mark.advance 1

variable {m : Mode} {r q : Reader} {d : Delimiter} {e : Cursor}

theorem behind_ofBytes {bytes : List UInt8} (file : String) (h : (Utf8.decode bytes).2 = none) :
    (ofBytes bytes file).Behind (Cursor.ofBytes bytes file) :=
  ⟨stands_ofBytes file h, .refl _⟩

theorem Behind.next (h : r.Behind e) (m : Mode) : (r.next m).Behind e := by
  refine ⟨h.toStands.next m, ?_⟩
  obtain ⟨t, ts, c, e', hg, hr⟩ := h.toStands.next_gets m
  rw [hr, mark_after]
  exact (h.mark_reached.trans h.reached).trans hg.passes.reaches

theorem Behind.putBack (h : r.Behind e) (hr : r.putBack = .ok q) : q.Behind e :=
  ⟨h.toStands.putBack hr, (putBack_places hr).2.1 ▸ h.mark_reached⟩

/-- A delimiter that was looked at is the next token where no keywords are wanted. -/
theorem Stands.next_of_peek (h : r.Stands) (hm : m = .plain ∨ m = .keyword)
    (hback : (r.next m).putBack = .ok q) (hd : (r.next m).token.kind = .delimiter d) :
    (q.next .plain).token.kind = .delimiter d := by
  have hc : m.comments = false := by rcases hm with rfl | rfl <;> rfl
  obtain ⟨t, ts, c, e, hfinds, hr⟩ := h.next_finds hc
  have hq : (r.looked t ts c).Stands := h.looked hfinds.passes.reaches
  rw [hr] at hd
  rw [hr, putBack_after] at hback
  obtain rfl := Except.ok.inj hback
  have hmark := hfinds.at_mark h.edge_whole
  rcases hm with rfl | rfl
  · rw [next_of_finds rfl hmark hq.edge_rounds]
    exact hd
  · obtain ⟨t', hplain, hiff⟩ := hmark.plain
    rw [next_of_finds rfl hplain hq.edge_rounds]
    exact (hiff d).1 hd

/-- A semicolon or a closing curly is a stop. -/
theorem Behind.landed (h : r.Behind e) (hk : (r.next .plain).token.kind = .delimiter d)
    (hd : d = .semicolon ∨ d = .rightBrace) : (r.next .plain).Landed e := by
  obtain ⟨t, ts, c, e, hf, hr⟩ := h.toStands.next_finds (m := .plain) rfl
  have hnext := h.next .plain
  rw [hr] at hk hnext ⊢
  obtain ⟨-, ⟨x, more, hrest, hx⟩, hedge⟩ := hf.delimiter hk
  refine ⟨hnext, ⟨x, more, hrest, ?_⟩, hedge⟩
  unfold Delimiter.ofChar? at hx
  rcases hd with rfl | rfl <;> split at hx <;> simp_all [Seam.isStop]

end Reader

/-- Being behind a place is an invariant of reading. -/
def staysBehind (e : Cursor) : Invariant where
  holds := Reader.Behind e
  fresh := Reader.Behind e
  failure _ := True
  next _ h := h.next _
  holds_of_fresh h := h
  putBack h hr := h.putBack hr
  unexpected _ _ := trivial
  misuse _ _ := trivial
  outOfRounds := trivial

theorem staysBehind_queueless (e : Cursor) : (staysBehind e).Queueless :=
  fun _ ts h => ⟨h.toStands.setQueue ts, h.mark_reached⟩

namespace Reading

variable {α β : Type} {e : Cursor}

/-- A reader that the step leaves has just read a stop. -/
def Lands (e : Cursor) (x : Reading α) : Prop :=
  ∀ r, r.Behind e → Sat x r (fun _ r' => r'.Landed e) fun _ => True

theorem staysBehind_putBack : Keeps (staysBehind e) putBack := fun r hr => heeds_putBack r hr

/-- Only the last part of a step counts. -/
theorem lands_bind {x : Reading α} {f : α → Reading β} (hx : Keeps (staysBehind e) x)
    (hf : ∀ a, Lands e (f a)) : Lands e (x >>= f) :=
  fun r hr => (hx r hr).bind fun a r' hr' => hf a r' hr'

theorem Lands.bind_pure {x : Reading α} (hx : Lands e x) (g : α → β) :
    Lands e (x >>= fun a => pure (g a)) :=
  fun r hr => (hx r hr).bind fun _ _ h => sat_pure h

theorem Lands.bind_position {x : Reading α} (hx : Lands e x) (g : α → Position → β) :
    Lands e (x >>= fun a => do return g a (← position)) :=
  fun r hr => (hx r hr).bind fun _ _ h => sat_position_bind (sat_pure h)

theorem lands_reject (expected : String) : Lands e (reject expected : Reading α) :=
  fun _ _ => reject_sat trivial

theorem lands_reject_bind (expected : String) (f : α → Reading β) :
    Lands e (reject expected >>= f) := lands_reject expected

theorem lands_expectDelimiter {d : Delimiter} (hd : d = .semicolon ∨ d = .rightBrace)
    (expected : String) : Lands e (expectDelimiter d expected) := by
  intro r hr
  refine Sat.bind (P := fun _ r' => r'.Landed e) ?_ fun _ _ h => sat_pure h
  refine sat_run_bind (run_next .plain r) ?_
  split
  · next hk => exact sat_text (hr.landed hk hd)
  · exact reject_sat trivial

theorem lands_optionally (k : Keyword) {f : Option Position → Reading α} (hf : ∀ p, Lands e (f p)) :
    Lands e (optionally k f) := by
  refine lands_bind (keeps_next rfl) fun kind => lands_bind keeps_position fun first => ?_
  split
  · exact hf _
  · exact lands_bind staysBehind_putBack fun _ => hf none

theorem lands_get_bind {f : Reader → Reading α} (hf : ∀ r, Lands e (f r)) : Lands e (get >>= f) :=
  fun r hr => sat_run_bind (run_get r) (hf r r hr)

/-- What is known of a token that was looked at. -/
theorem peek_sat {m : Mode} (hm : m = .plain ∨ m = .keyword) {r : Reader} (hr : r.Behind e) :
    Sat (peek m) r (fun k q => q.Behind e ∧
      ∀ d, k = .delimiter d → (q.next .plain).token.kind = .delimiter d) fun _ => True := by
  refine sat_run_bind (run_next m r) ((putBack_sat m).bind fun _ q ⟨hback, _⟩ => sat_pure ?_)
  exact ⟨(hr.next m).putBack hback, fun d hd => hr.toStands.next_of_peek hm hback hd⟩

end Reading

namespace Grammar

open Reading

theorem lands_finish (start : Position) : Lands e (finish start) :=
  (lands_expectDelimiter (.inl rfl) _).bind_position fun _ last =>
    { extent := ⟨start, last⟩ : Notes }

theorem lands_noted {α : Type} (item : α) (start : Position) :
    Lands e (do return { item, notes := ← finish start : Noted α }) :=
  (lands_finish start).bind_pure fun notes => { item, notes : Noted α }

theorem lands_version : Lands e version := by
  refine lands_bind (keeps_expectKeyword _) fun start => lands_bind (keeps_expectDelimiter _ _) fun _ =>
    lands_bind (keeps_expect rfl _ _) fun quote => lands_bind (keeps_next rfl) fun _ =>
      lands_bind keeps_text fun word => ?_
  split
  · exact lands_reject_bind _ _
  · refine lands_bind (keeps_next rfl) fun kind => lands_bind keeps_text fun closing => ?_
    split
    · exact lands_reject_bind _ _
    · exact lands_noted _ start

theorem lands_importBehind (visibility : Visibility) (start : Position) (kind : Kind) :
    Lands e (importBehind visibility start kind) := by
  unfold importBehind
  split
  · exact lands_reject_bind _ _
  · exact lands_bind keeps_text fun location => lands_noted _ start

theorem lands_importing : Lands e importing := by
  rw [importing_eq]
  refine lands_bind (keeps_expectKeyword _) fun start => lands_bind (keeps_next rfl) fun kind => ?_
  split
  · exact lands_importBehind _ start kind
  · exact lands_bind (keeps_next rfl) fun kind => lands_importBehind _ start kind

theorem lands_package : Lands e package :=
  lands_bind (keeps_expectKeyword _) fun start => lands_bind keeps_fullIdent fun _ =>
    lands_noted _ start

theorem lands_option (opts : Options) : Lands e (option opts) := by
  refine lands_bind (keeps_expectKeyword _) fun start => lands_bind keeps_optionName fun name =>
    lands_bind (keeps_expectDelimiter _ _) fun _ => lands_bind (keeps_constant? _) fun a => ?_
  split
  · exact lands_noted _ start
  · exact lands_bind keeps_endpoint fun _ => lands_noted _ start

theorem lands_field (opts : Options) : Lands e (field opts) := by
  rw [field_eq]
  exact lands_optionally _ fun first => lands_bind keeps_fieldType fun _ =>
    lands_bind (keeps_expectIdent _) fun _ => lands_bind (keeps_expectDelimiter _ _) fun _ =>
      lands_bind keeps_fieldNumber fun _ => lands_bind (keeps_settings opts) fun _ =>
        (lands_finish _).bind_pure _

theorem lands_mapField (opts : Options) : Lands e (mapField opts) :=
  lands_bind (keeps_expectKeyword _) fun start => lands_bind (keeps_expectDelimiter _ _) fun _ =>
    lands_bind keeps_keyType fun _ => lands_bind (keeps_expectDelimiter _ _) fun _ =>
      lands_bind keeps_fieldType fun _ => lands_bind (keeps_expectDelimiter _ _) fun _ =>
        lands_bind (keeps_expectIdent _) fun _ => lands_bind (keeps_expectDelimiter _ _) fun _ =>
          lands_bind keeps_fieldNumber fun _ => lands_bind (keeps_settings opts) fun _ =>
            lands_noted _ start

theorem lands_enumField (opts : Options) : Lands e (enumField opts) := by
  refine lands_bind (keeps_expectIdent _) fun name => lands_bind keeps_position fun start =>
    lands_bind (keeps_expectDelimiter _ _) fun _ => lands_bind (keeps_next rfl) fun kind =>
      lands_bind keeps_text fun number => ?_
  split
  · exact lands_reject_bind _ _
  · exact lands_bind (keeps_settings opts) fun _ => lands_noted _ start

theorem lands_reserved : Lands e reserved := by
  refine lands_bind (keeps_expectKeyword _) fun start => lands_bind (keeps_peek rfl) fun kind => ?_
  split
  · exact lands_bind keeps_reservedNames fun _ => lands_noted _ start
  · exact lands_bind keeps_ranges fun _ => lands_noted _ start

section
variable {body : Scope → Reading Body} (hbody : ∀ scope, Lands e (body scope))
include hbody

theorem lands_block (scope : Scope) (head : Head) (start : Position) :
    Lands e (block body scope head start) :=
  (hbody scope).bind_pure _

theorem lands_rpc : Lands e (rpc body) := by
  refine lands_bind (keeps_expectKeyword _) fun start => lands_bind (keeps_expectIdent _) fun name =>
    lands_bind keeps_rpcType fun request => lands_bind (keeps_expectKeyword _) fun _ =>
      lands_bind keeps_rpcType fun response => fun r hr => ?_
  refine sat_run_bind (run_next .plain r) ?_
  split
  · next hk => exact sat_position_bind (sat_pure (hr.landed hk (.inl rfl)))
  · exact lands_bind staysBehind_putBack (fun _ => lands_block hbody _ _ start) _ (hr.next .plain)
  · exact lands_reject _ _ (hr.next .plain)

/-- A block that starts with a keyword. -/
theorem lands_keyword_block {α : Type} (k : Keyword) {x : Reading α} (hx : Keeps (staysBehind e) x)
    (scope : Scope) (head : α → Head) :
    Lands e (do let start ← expectKeyword k; block body scope (head (← x)) start) :=
  lands_bind (keeps_expectKeyword k) fun start => lands_bind hx fun _ => lands_block hbody _ _ start

theorem lands_declaration (opts : Options) (p : Production) : Lands e (declaration opts body p) := by
  cases p with
  | version => exact lands_version.bind_pure _
  | importing => exact lands_importing.bind_pure _
  | package => exact lands_package.bind_pure _
  | option => exact (lands_option opts).bind_pure _
  | field => exact (lands_field opts).bind_pure _
  | mapField => exact (lands_mapField opts).bind_pure _
  | enumField => exact (lands_enumField opts).bind_pure _
  | reserved => exact lands_reserved.bind_pure _
  | oneof => exact lands_keyword_block hbody _ (keeps_expectIdent _) _ _
  | enum => exact lands_keyword_block hbody _ (keeps_expectIdent _) _ _
  | extend => exact lands_keyword_block hbody _ keeps_messageType _ fun a => .extend a.1
  | message => exact lands_keyword_block hbody _ (keeps_expectIdent _) _ _
  | service => exact lands_keyword_block hbody _ (keeps_expectIdent _) _ _
  | rpc => exact lands_rpc hbody

end

theorem lands_bodyAtMost (opts : Options) (depth : Nat) (scope : Scope) :
    Lands e (bodyAtMost opts depth scope) := by
  induction depth generalizing scope with
  | zero => exact fun _ _ => sat_throw trivial
  | succ depth ih =>
    refine lands_bind (keeps_expectDelimiter _ _) fun _ => lands_bind keeps_position fun _ =>
      lands_bind (keeps_commentBehind (staysBehind_queueless e) _) fun behindCurly => fun r hr => ?_
    refine sat_repeatFrom (I := fun _ r => r.Behind e) hr (fun elements r hr => ?_) trivial
    refine (keeps_commentsAhead (staysBehind_queueless e) r hr).bind fun comments r hr => ?_
    refine (peek_sat (.inr rfl) hr).bind fun kind r ⟨hr, hnext⟩ => ?_
    split
    · refine sat_run_bind (run_next .plain r) (sat_position_bind (sat_pure ?_))
      exact hr.landed (hnext _ rfl) (.inr rfl)
    · exact sat_run_bind (run_next .plain r) (sat_pure (hr.next .plain))
    · split
      · exact (sat_trivial _ r).bind fun _ _ _ => reject_sat trivial
      · refine (keeps_element (staysBehind_queueless e) ?_ opts _ comments _ r hr).bind fun _ _ h =>
          sat_pure h
        exact fun scope => keeps_bodyAtMost (staysBehind_queueless e) opts depth scope

/-- A round of a file sees the end of the text, or it lands behind a stop. -/
theorem fileNext_lands (opts : Options) (first : Bool) {r : Reader} (hr : r.Behind e) :
    Sat (fileNext opts first) r (fun l r' => (∃ comments, l = .ended comments) ∨ r'.Landed e)
      fun _ => True := by
  refine (keeps_pending r hr).bind fun queue r hr =>
    (keeps_setPending (staysBehind_queueless e) [] r hr).bind fun _ r hr => ?_
  refine (peek_sat (.inr rfl) hr).bind fun kind r ⟨hr, hnext⟩ => ?_
  split
  · exact sat_pure (.inl ⟨_, rfl⟩)
  · exact sat_run_bind (run_next .plain r) (sat_pure (.inr (hr.landed (hnext _ rfl) (.inl rfl))))
  · split
    · exact (lands_version r hr).bind fun _ _ h => sat_pure (.inr h)
    · exact (sat_trivial _ r).bind fun _ _ _ => reject_sat trivial
  · split
    · exact (sat_trivial _ r).bind fun _ _ _ => reject_sat trivial
    · have hbody (scope : Scope) : Lands e (body opts scope) :=
        lands_get_bind fun r => lands_bodyAtMost opts _ scope
      exact (lands_declaration hbody opts _ r hr).bind fun _ _ h => sat_pure (.inr h)

theorem fileHead_lands (opts : Options) (first : Bool) {r : Reader} (hr : r.Behind e) :
    Sat (fileHead opts first) r (fun l r' => (∃ comments, l = .ended comments) ∨ r'.Landed e)
      fun _ => True := by
  have hpeek : Keeps (staysBehind e) (peek .plain) := keeps_peek rfl
  exact (hpeek r hr).bind fun _ _ hr => fileNext_lands opts first hr

end Grammar

end ProtoIdl
