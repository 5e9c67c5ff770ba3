import ApiCatalog.Proofs.Html.Reader
/-!
# The parts of a page

A page is made of its sections, a section of its identifier and its rows, and a row of its search text, its method and
the rest (`exists_page`, `exists_entrySection`, `exists_endpointRow`).  What stands around these has no tag with which
one of them begins.
-/

namespace ApiCatalog.Html

def rowStart : List Char := "div class=\"endpoint\" data-search=\"".toList

def openings : List (List Char) := rowStart :: Notes.starts

/-- The starts of the tags of sections, of rows and of the methods in them. -/
def handles : List (List Char) := [rowStart, Notes.entryStart, Notes.methodStart]

theorem handles_subset : handles ⊆ openings := by
  intro start hstart
  simp only [handles, List.mem_cons, List.not_mem_nil, or_false] at hstart
  rcases hstart with rfl | rfl | rfl <;> simp [openings, Notes.starts]

theorem avoids_style : avoids openings style.toList = true := by
  unfold style
  simp only [String.toList_append]
  iterate 23 refine avoids_append ?_ (avoids_ofList (by decide +kernel))
  exact avoids_ofList (by decide +kernel)

theorem avoids_filterScript : avoids openings filterScript.toList = true := by
  unfold filterScript
  simp only [String.toList_append]
  iterate 10 refine avoids_append ?_ (avoids_ofList (by decide +kernel))
  exact avoids_ofList (by decide +kernel)

theorem avoids_header (c : Catalog) : avoids openings (header c).toList = true := by
  obtain ⟨hgenerated, hsources, hendpoints, hclose, hspan, hblank, hend⟩ :
      avoids openings "<span>Generated ".toList = true ∧ avoids openings "</span><span>".toList = true ∧
      avoids openings " sources</span><span>".toList = true ∧ avoids openings " endpoints</span>".toList = true ∧
      avoids openings "<span>".toList = true ∧ avoids openings " ".toList = true ∧
      avoids openings "</span>".toList = true :=
    And.imp avoids_ofList (And.imp avoids_ofList (And.imp avoids_ofList (And.imp avoids_ofList
      (And.imp avoids_ofList (And.imp avoids_ofList avoids_ofList))))) (by decide +kernel)
  unfold header
  simp only [String.toList_append, List.append_assoc]
  refine avoids_append hgenerated <| avoids_append (avoids_escape _) <| avoids_append hsources <|
    avoids_append (avoids_toString _) <| avoids_append hendpoints <| avoids_append (avoids_toString _) <|
    avoids_append hclose <| avoids_join fun text htext => ?_
  obtain ⟨count, -, rfl⟩ := List.mem_map.1 htext
  simp only [String.toList_append, List.append_assoc]
  exact avoids_append hspan <| avoids_append (avoids_toString _) <| avoids_append hblank <|
    avoids_append (avoids_escape _) hend

/-- **A page has its sections one behind the other, and around them no tag that tells where something begins.** -/
theorem exists_page (c : Catalog) : ∃ front back, avoids openings front = true ∧ avoids openings back = true ∧
    (page c).toList = front ++ ((String.join (c.entries.map entrySection)).toList ++ back) := by
  obtain ⟨hhead, hbody, hstats, hmain, hscript, hfoot⟩ :
      avoids openings
        "<!DOCTYPE html>\n<html lang=\"en\">\n<head>\n<meta charset=\"utf-8\">\n<title>API Catalog</title>\n<style>".toList
          = true ∧
      avoids openings "</style>\n</head>\n<body>\n<header>\n<h1>API Catalog</h1>\n<div class=\"stats\">".toList = true ∧
      avoids openings "</div>\n</header>\n".toList = true ∧
      avoids openings
        "<input id=\"filter\" type=\"search\" placeholder=\"Filter by path, summary or tag\">\n<main>\n".toList = true ∧
      avoids openings "</main>\n<script>".toList = true ∧
      avoids openings "</script>\n</body>\n</html>\n".toList = true :=
    And.imp avoids_ofList (And.imp avoids_ofList (And.imp avoids_ofList (And.imp avoids_ofList
      (And.imp avoids_ofList avoids_ofList)))) (by decide +kernel)
  unfold page
  simp only [String.toList_append, List.append_assoc]
  obtain ⟨front, hfront, havoids⟩ := (Passes.refl _).append hmain |>.append hstats |>.append (avoids_header c)
    |>.append hbody |>.append avoids_style |>.append hhead
  exact ⟨front, _, havoids, avoids_append hscript (avoids_append avoids_filterScript hfoot), hfront⟩

/-- **A section has its identifier and then its rows one behind the other.** -/
theorem exists_entrySection (e : Entry) : ∃ front back, avoids openings front = true ∧ avoids openings back = true ∧
    (entrySection e).toList = '<' :: (Notes.entryStart ++ ((escape e.id).toList ++
      '"' :: (front ++ ((String.join (e.endpoints.map endpointRow)).toList ++ back)))) := by
  obtain ⟨htitle, hsmall, hsmallEnd, hmeta, hspanEnd, hspan, hmetaEnd, hp, hpEnd, hend⟩ :
      avoids openings ">\n<h2>".toList = true ∧ avoids openings " <small>v".toList = true ∧
      avoids openings "</small>".toList = true ∧
      avoids openings "</h2>\n<div class=\"meta\"><span>".toList = true ∧
      avoids openings "</span>".toList = true ∧ avoids openings " &middot; <span>".toList = true ∧
      avoids openings "</div>\n".toList = true ∧ avoids openings "<p>".toList = true ∧
      avoids openings "</p>\n".toList = true ∧ avoids openings "</section>\n".toList = true :=
    And.imp avoids_ofList (And.imp avoids_ofList (And.imp avoids_ofList (And.imp avoids_ofList
      (And.imp avoids_ofList (And.imp avoids_ofList (And.imp avoids_ofList (And.imp avoids_ofList
      (And.imp avoids_ofList avoids_ofList)))))))) (by decide +kernel)
  have hopen : "<section class=\"entry\" id=\"".toList = '<' :: Notes.entryStart := by decide +kernel
  have hclose : "\">\n<h2>".toList = '"' :: ">\n<h2>".toList := by decide +kernel
  unfold entrySection
  simp only [String.toList_append, List.append_assoc, hopen, hclose, List.cons_append]
  obtain ⟨front, hfront, havoids⟩ := (Passes.refl _).append (avoids_elim hp hpEnd e.metadata.description)
    |>.append hmetaEnd |>.append (avoids_elim hspan hspanEnd e.metadata.baseUrl)
    |>.append (avoids_elim hspan hspanEnd e.metadata.teamOwner) |>.append hspanEnd
    |>.append (avoids_escape e.metadata.sourceFile) |>.append hmeta
    |>.append (avoids_elim hsmall hsmallEnd e.metadata.version)
    |>.append (avoids_escape (e.metadata.title.getD e.metadata.sourceFile)) |>.append htitle
  exact ⟨front, _, havoids, hend, by rw [← hfront]⟩

/-- **A row has its search text, and behind it its method and no other tag with which one of these begins.** -/
theorem exists_endpointRow (e : Endpoint) : ∃ back, avoids handles back = true ∧
    (endpointRow e).toList = '<' :: (rowStart ++ ((escape (searchText e)).toList ++
      '"' :: '>' :: '<' :: (Notes.methodStart ++ ((escape (lowered e.method)).toList ++ '"' :: back)))) := by
  obtain ⟨hquote, hpath, hspanEnd, hsummary, htag, hend, hdeprecated, hbeta, hinternal⟩ :
      avoids handles ">".toList = true ∧ avoids handles "</span> <span class=\"path\">".toList = true ∧
      avoids handles "</span>".toList = true ∧ avoids handles " <span class=\"summary\">".toList = true ∧
      avoids handles " <span class=\"tag\">".toList = true ∧ avoids handles "</div>\n".toList = true ∧
      avoids handles (statusBadge .deprecated).toList = true ∧ avoids handles (statusBadge .beta).toList = true ∧
      avoids handles (statusBadge .internal).toList = true :=
    And.imp avoids_ofList (And.imp avoids_ofList (And.imp avoids_ofList (And.imp avoids_ofList
      (And.imp avoids_ofList (And.imp avoids_ofList id))))) (by decide +kernel)
  have hbadge : avoids handles (statusBadge e.status).toList = true := by
    cases e.status with
    | active => rfl
    | deprecated => exact hdeprecated
    | beta => exact hbeta
    | internal => exact hinternal
  have htags : avoids handles (String.join (e.tags.map fun tag =>
      " <span class=\"tag\">" ++ escape tag ++ "</span>")).toList = true := by
    refine avoids_join fun text htext => ?_
    obtain ⟨tag, -, rfl⟩ := List.mem_map.1 htext
    exact avoids_elim htag hspanEnd (some tag)
  have hopen : "<div class=\"endpoint\" data-search=\"".toList = '<' :: rowStart := by decide +kernel
  have hmethod : "\"><span class=\"method method-".toList = '"' :: '>' :: '<' :: Notes.methodStart := by decide +kernel
  have hclose : "\">".toList = '"' :: ">".toList := by decide +kernel
  unfold endpointRow
  simp only [String.toList_append, List.append_assoc, hopen, hmethod, hclose, List.cons_append]
  refine ⟨_, ?_, rfl⟩
  exact avoids_append hquote <| avoids_append (avoids_escape _) <| avoids_append hpath <|
    avoids_append (avoids_escape _) <| avoids_append hspanEnd <| avoids_append hbadge <|
    avoids_append (avoids_elim hsummary hspanEnd (e.summary.or e.description)) <| avoids_append htags hend

end ApiCatalog.Html
