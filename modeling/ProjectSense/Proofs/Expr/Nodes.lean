import ProjectSense.Proofs.Expr.Normal

/-!
# The nodes of an expression

A node is reached by its path: the place of a child, the place of a child in that, and so on.  The
same node may stand in several places, so that a place in an expression is a path and not a node.

* `Expr.nodeAt?`, `Expr.All`: the node at a path, and what holds of all nodes.
* `Tokens.all_parts`, `Tokens.all_part`, `Tokens.all_links`: the readers, by recursion on the tokens
  that are left.
* `Expr.all_parse`: what holds of every node when it is read holds of all nodes of an expression.
-/

namespace ProjectSense

namespace Expr

/-! ### Paths -/

/-- the node at the end of a path of places among children -/
def nodeAt? (e : Expr) : List Nat → Option Expr
  | [] => some e
  | place :: path => e.children[place]? >>= fun child => child.nodeAt? path

/-- the property holds of the node and of all nodes in it -/
inductive All (P : Expr → Prop) : Expr → Prop
  | intro {e : Expr} (h : P e) (hc : ∀ c ∈ e.children, All P c) : All P e

variable {P : Expr → Prop} {e n : Expr} {path : List Nat}

theorem All.head (h : e.All P) : P e := by
  obtain ⟨h, -⟩ := h
  exact h

theorem All.children (h : e.All P) : ∀ c ∈ e.children, c.All P := by
  obtain ⟨-, hc⟩ := h
  exact hc

theorem nodeAt?_cons {place : Nat} : e.nodeAt? (place :: path) = some n ↔
    ∃ child, e.children[place]? = some child ∧ child.nodeAt? path = some n :=
  Option.bind_eq_some_iff

theorem nodeAt?_append (e : Expr) (path more : List Nat) :
    e.nodeAt? (path ++ more) = e.nodeAt? path >>= fun n => n.nodeAt? more := by
  induction path generalizing e with
  | nil => rfl
  | cons place path ih =>
    rw [List.cons_append, nodeAt?, nodeAt?]
    cases e.children[place]? with
    | none => rfl
    | some child => exact ih child

theorem All.nodeAt (h : e.All P) (hn : e.nodeAt? path = some n) : n.All P := by
  induction path generalizing e with
  | nil => exact Option.some.inj hn ▸ h
  | cons place path ih =>
    obtain ⟨child, hchild, hn⟩ := nodeAt?_cons.1 hn
    exact ih (h.children child (List.mem_of_getElem? hchild)) hn

theorem all_leaf (hl : e.isLeaf = true) (h : P e) : e.All P := by
  refine ⟨h, fun c hc => ?_⟩
  cases e with
  | property | metadata | call => cases hc
  | text | item | concat | list => cases hl

theorem all_text {s : Span} {raw : String} (h : P (.text s raw)) : (Expr.text s raw).All P :=
  ⟨h, fun c hc => by cases hc⟩

end Expr

namespace Tokens

open ProjectSense.Expr (All)

variable {ts us : Tokens} {stop : TokenKind} {base : Nat} {text : List Char} {P : Expr → Prop}

/-! ### What holds of all nodes -/

/-- the tokens stand in the text that begins at `base`, and are among those that it is cut into -/
structure Lexed (base : Nat) (text : List Char) (ts : Tokens) : Prop extends ts.In base text where
  mem : ∀ t ∈ ts.rest, t ∈ Token.lex text

theorem Lexed.leads (h : ts.Lexed base text) (g : ts.Leads us) : us.Lexed base text := by
  refine ⟨h.toIn.leads g, fun t ht => h.mem t ?_⟩
  obtain ⟨taken, g⟩ := g
  rw [g.rest]
  exact List.mem_append_right taken ht

theorem lexed_lex (text : List Char) (base : Nat) :
    (⟨base, Token.lex text⟩ : Tokens).Lexed base text :=
  ⟨in_lex text base, fun _ ht => ht⟩

/-- the property holds of every node below the top as it is read -/
structure Makes (base : Nat) (text : List Char) (P : Expr → Prop) : Prop where
  literal : ∀ {s : Span} {raw : String}, s.Holds base text raw.toList → P (.text s raw)
  property : ∀ {ts us : Tokens} {head : List Token}, ts.Lexed base text → ts.Passes head us →
    Token.texts head ≠ [] → P (property ts.pos us).1
  metadata : ∀ {ts us : Tokens} {head : List Token}, ts.Lexed base text → ts.Passes head us →
    Token.texts head ≠ [] → P (metadata ts.pos us).1
  call : ∀ {named target : Tokens}, named.Lexed base text → target.Lexed base text →
    target.kind? = some .ident → P (itemCall named.word.1 target).1
  item : ∀ {ts us after : Tokens} {head : List Token} {transforms : List Expr}
    {separator : Option String}, ts.Lexed base text → ts.Passes head us → Token.texts head ≠ [] →
    ReadsLinks base text us.skipBlanks.word.2 transforms after →
    P (.item ⟨ts.pos, after.close.2.pos⟩ us.skipBlanks.word.1 transforms separator after.close.1)
  concat : ∀ {s : Span} {parts : List Expr}, (Expr.concat s parts).Normal base text →
    P (.concat s parts)

theorem Makes.ofParts (hP : Makes base text P) {es : List Expr} (h : ts.Lexed base text)
    (g : ReadsParts base text stop ts es us) (hall : ∀ e ∈ es, e.All P) :
    (Expr.ofParts ts.pos us.pos es).All P := by
  obtain ⟨⟨hnormal, -⟩, -⟩ := g.ofParts h.toIn
  match es with
  | [] => exact Expr.all_text (hP.literal h.toIn.empty)
  | [e] => exact hall e List.mem_cons_self
  | _ :: _ :: _ => exact ⟨hP.concat hnormal, hall⟩

mutual

theorem all_parts (hP : Makes base text P) (stop : TokenKind) (ts : Tokens)
    (h : ts.Lexed base text) : ∀ e ∈ (parts stop ts).value, e.All P := by
  by_cases hk : ts.kind? = none ∨ ts.kind? = some stop
  · rw [(parts_stop hk).1]
    exact fun e he => by cases he
  · obtain ⟨k, hkind⟩ : ∃ k, ts.kind? = some k :=
      Option.ne_none_iff_exists'.1 fun hn => hk (Or.inl hn)
    have hlt : ts.advance.rest.length < ts.rest.length :=
      length_advance_lt (rest_ne_nil_of_kind? hkind)
    have hle := (part stop ts.kind? ts.pos (ts.rest.take 1) ts.advance).le
    have hne := h.toIn.texts_head (by simp [hkind])
    have hfirst := all_part hP stop ts.kind? (ts.rest.take 1) ts ts.advance h (passes_advance ts)
      hne
    have hleads := (reads_part stop ts.kind? (ts.rest.take 1) ts ts.advance h.toIn
      (passes_advance ts) hne).leads
    have hmore := all_parts hP stop _ (h.leads hleads)
    rw [(parts_next hk).1]
    exact List.forall_mem_cons.2 ⟨hfirst, hmore⟩
termination_by 3 * ts.rest.length

theorem all_part (hP : Makes base text P) (stop : TokenKind) (kind? : Option TokenKind)
    (head : List Token) (ts us : Tokens) (h : ts.Lexed base text) (hp : ts.Passes head us)
    (hne : Token.texts head ≠ []) : (part stop kind? ts.pos head us).value.All P := by
  by_cases h1 : kind? = some .propertyOpen
  · subst h1
    rw [part]
    exact Expr.all_leaf (span_property ts.pos us).1 (hP.property h hp hne)
  by_cases h2 : kind? = some .metadataOpen
  · subst h2
    rw [part]
    exact Expr.all_leaf (span_metadata ts.pos us).1 (hP.metadata h hp hne)
  by_cases h3 : kind? = some .itemOpen
  · subst h3
    have hinner := h.leads (hp.leads.trans (leads_skipBlanks us))
    have hnamed := hinner.leads (leads_word _)
    have hle : us.skipBlanks.word.2.rest.length ≤ us.rest.length :=
      Nat.le_trans us.skipBlanks.length_word_le us.length_skipBlanks_le
    have hlinks := all_links hP us.skipBlanks us.skipBlanks.word.2 hinner hnamed
    rw [(part_item stop ts.pos head us).1]
    exact ⟨hP.item h hp hne (reads_links _ _ hnamed.toIn), hlinks⟩
  · have hsound := (reads_part stop kind? head ts us h.toIn hp hne).sound
    rw [(part_text stop ts.pos us h1 h2 h3 head).1] at hsound ⊢
    obtain ⟨hholds, -⟩ := hsound
    exact Expr.all_text (hP.literal hholds)
termination_by 3 * us.rest.length + 2

theorem all_links (hP : Makes base text P) (named ts : Tokens) (hn : named.Lexed base text)
    (h : ts.Lexed base text) : ∀ e ∈ (links named.word.1 ts).value.1, e.All P := by
  have hskip := leads_skipBlanks ts
  have hlen := ts.length_skipBlanks_le
  by_cases hk : ts.skipBlanks.kind? = some .arrow
  · have hlt := length_advance_lt (rest_ne_nil_of_kind? hk)
    have hlen' := ts.skipBlanks.advance.length_skipBlanks_le
    have htarget := hskip.trans ((leads_advance _).trans (leads_skipBlanks _))
    by_cases hq : ts.skipBlanks.advance.skipBlanks.kind? = some .quote
    · have hlen2 := ts.skipBlanks.advance.skipBlanks.length_advance_le
      have hopen := h.leads (htarget.trans (leads_advance _))
      have hlen3 := (parts .quote ts.skipBlanks.advance.skipBlanks.advance).le
      have hlen4 := (parts .quote ts.skipBlanks.advance.skipBlanks.advance).after.length_eat_le
        .quote
      have hquoted := all_parts hP .quote ts.skipBlanks.advance.skipBlanks.advance hopen
      have hread := reads_parts .quote ts.skipBlanks.advance.skipBlanks.advance hopen.toIn
      have hmore := all_links hP named _ hn (hopen.leads (hread.leads.trans (leads_eat .quote _)))
      rw [(links_quoted named.word.1 hk hq rfl rfl).1]
      exact List.forall_mem_cons.2 ⟨hP.ofParts hopen hread hquoted, hmore⟩
    by_cases hi : ts.skipBlanks.advance.skipBlanks.kind? = some .ident
    · have hlen2 := length_itemCall_le named.word.1 ts.skipBlanks.advance.skipBlanks
      have hcall := hP.call hn (h.leads htarget) hi
      have hleads := leads_itemCall named.word.1 ts.skipBlanks.advance.skipBlanks
      have hmore := all_links hP named _ hn (h.leads (htarget.trans hleads))
      rw [(links_call named.word.1 hk hi).1]
      exact List.forall_mem_cons.2 ⟨Expr.all_leaf rfl hcall, hmore⟩
    · have hmore := all_links hP named _ hn (h.leads htarget)
      rw [(links_skip named.word.1 hk hq hi).1]
      exact hmore
  by_cases hc : ts.skipBlanks.kind? = some .comma
  · have hlt := length_advance_lt (rest_ne_nil_of_kind? hc)
    have hlen2 := length_separator_le ts.skipBlanks.advance
    have hsep := hskip.trans ((leads_advance _).trans (leads_separator _))
    have hmore := all_links hP named _ hn (h.leads hsep)
    rw [(links_comma named.word.1 hc).1]
    exact hmore
  · rw [(links_end named.word.1 hk hc).1]
    exact fun e he => by cases he
termination_by 3 * ts.rest.length + 1

end

theorem all_entries (hP : Makes base text P) (ts : Tokens) (h : ts.Lexed base text) :
    ∀ e ∈ (entries ts).1, e.All P := by
  fun_induction entries ts with
  | case1 ts first after le hparts entry hk hlt more ih =>
    have hfirst := all_parts hP .semicolon ts h
    have hread := reads_parts .semicolon ts h.toIn
    rw [hparts] at hfirst hread
    have hmore := ih (h.leads (hread.leads.trans (leads_advance after)))
    exact List.forall_mem_cons.2 ⟨hP.ofParts h hread hfirst, hmore⟩
  | case2 ts first after le hparts entry hk =>
    have hfirst := all_parts hP .semicolon ts h
    have hread := reads_parts .semicolon ts h.toIn
    rw [hparts] at hfirst hread
    exact List.forall_mem_singleton.2 (hP.ofParts h hread hfirst)

end Tokens

namespace Expr

/-- what holds of every node below the top as it is read holds of all nodes in the entries -/
theorem all_parse {P : Expr → Prop} {base : Nat} {text : String}
    (hP : Tokens.Makes base text.toList P) : ∀ e ∈ (parse text base).entries, e.All P := by
  have hlexed := Tokens.lexed_lex text.toList base
  rw [parse, entries_ofEntries _ _ (Tokens.reads_entries _ hlexed.toIn).sound]
  exact Tokens.all_entries hP _ hlexed

end Expr
end ProjectSense
