import ApiCatalog.Catalog.Stats
import ApiCatalog.Text.Case
/-!
# The catalog as a page

A page for browsing a catalog, with nothing to load besides it.  Every text of the catalog is escaped
where it is put in, so that it can neither open nor close an element or an attribute.
-/

namespace ApiCatalog.Html

/-- A character in the content of an element or in a quoted attribute. -/
def escapeChar (c : Char) : List Char :=
  if c = '&' then "&amp;".toList
  else if c = '<' then "&lt;".toList
  else if c = '>' then "&gt;".toList
  else if c = '"' then "&quot;".toList
  else if c = '\'' then "&#39;".toList
  else [c]

def escape (text : String) : String :=
  String.ofList (text.toList.flatMap escapeChar)

/-- The style sheet of the page. -/
def style : String :=
  "\n"
    ++ "body \x7b font-family: system-ui, sans-serif; margin: 2rem; background: #f6f7f9; color: #1d2330; \x7d\n"
    ++ "header \x7b margin-bottom: 1.5rem; \x7d\n"
    ++ ".stats span \x7b display: inline-block; margin-right: 1.5rem; \x7d\n"
    ++ "#filter \x7b width: 100%; padding: .5rem; font-size: 1rem; margin-bottom: 1.5rem; \x7d\n"
    ++ ".entry \x7b background: #fff; border-radius: 6px; padding: 1rem 1.25rem; margin-bottom: 1rem; "
    ++ "box-shadow: 0 1px 2px rgba(0,0,0,.08); \x7d\n"
    ++ ".entry h2 \x7b margin: 0 0 .25rem; font-size: 1.15rem; \x7d\n"
    ++ ".meta \x7b color: #5b6475; font-size: .85rem; margin-bottom: .5rem; \x7d\n"
    ++ ".endpoint \x7b padding: .35rem 0; border-top: 1px solid #eceef2; \x7d\n"
    ++ ".method, .status, .tag \x7b display: inline-block; border-radius: 3px; padding: 0 .4rem; "
    ++ "font-size: .75rem; font-weight: 600; \x7d\n"
    ++ ".method \x7b min-width: 4rem; text-align: center; color: #fff; background: #6b7280; \x7d\n"
    ++ ".method-get \x7b background: #2563eb; \x7d\n"
    ++ ".method-post \x7b background: #16a34a; \x7d\n"
    ++ ".method-put \x7b background: #d97706; \x7d\n"
    ++ ".method-patch \x7b background: #7c3aed; \x7d\n"
    ++ ".method-delete \x7b background: #dc2626; \x7d\n"
    ++ ".status-deprecated \x7b background: #fee2e2; color: #991b1b; \x7d\n"
    ++ ".status-beta \x7b background: #fef3c7; color: #92400e; \x7d\n"
    ++ ".status-internal \x7b background: #e0e7ff; color: #3730a3; \x7d\n"
    ++ ".tag \x7b background: #eef2f7; color: #374151; font-weight: 400; \x7d\n"
    ++ ".path \x7b font-family: ui-monospace, monospace; \x7d\n"
    ++ ".summary \x7b color: #5b6475; \x7d\n"

/-- The script behind the filter box: it hides the rows whose search text lacks the query. -/
def filterScript : String :=
  "\n"
    ++ "document.getElementById('filter').addEventListener('input', function (e) \x7b\n"
    ++ "  var q = e.target.value.toLowerCase();\n"
    ++ "  document.querySelectorAll('.endpoint').forEach(function (row) \x7b\n"
    ++ "    row.style.display = row.dataset.search.indexOf(q) === -1 ? 'none' : '';\n"
    ++ "  \x7d);\n"
    ++ "  document.querySelectorAll('.entry').forEach(function (card) \x7b\n"
    ++ "    var visible = card.querySelectorAll('.endpoint:not([style*=\"none\"])').length;\n"
    ++ "    card.style.display = visible === 0 ? 'none' : '';\n"
    ++ "  \x7d);\n"
    ++ "\x7d);\n"

def searchText (endpoint : Endpoint) : String :=
  let text := endpoint.method ++ " " ++ endpoint.path ++ " " ++ endpoint.summary.getD "" ++ " "
    ++ " ".intercalate endpoint.tags
  String.ofList (Text.lowercase text.toList)

def lowered (text : String) : String :=
  String.ofList (Text.lowercase text.toList)

/-- The badge of a status other than active. -/
def statusBadge (status : Status) : String :=
  match status with
  | .active => ""
  | status => " <span class=\"status status-" ++ status.text ++ "\">" ++ status.text ++ "</span>"

def endpointRow (endpoint : Endpoint) : String :=
  "<div class=\"endpoint\" data-search=\"" ++ escape (searchText endpoint) ++ "\"><span class=\"method method-"
    ++ escape (lowered endpoint.method) ++ "\">" ++ escape endpoint.method ++ "</span> <span class=\"path\">"
    ++ escape endpoint.path ++ "</span>"
    ++ statusBadge endpoint.status
    ++ (endpoint.summary.or endpoint.description).elim ""
      (fun text => " <span class=\"summary\">" ++ escape text ++ "</span>")
    ++ String.join (endpoint.tags.map fun tag => " <span class=\"tag\">" ++ escape tag ++ "</span>")
    ++ "</div>\n"

def entrySection (entry : Entry) : String :=
  let source := entry.metadata
  let detail (text : Option String) : String :=
    text.elim "" fun text => " &middot; <span>" ++ escape text ++ "</span>"
  "<section class=\"entry\" id=\"" ++ escape entry.id ++ "\">\n<h2>" ++ escape (source.title.getD source.sourceFile)
    ++ source.version.elim "" (fun version => " <small>v" ++ escape version ++ "</small>")
    ++ "</h2>\n<div class=\"meta\"><span>" ++ escape source.sourceFile ++ "</span>"
    ++ detail source.teamOwner ++ detail source.baseUrl
    ++ "</div>\n"
    ++ source.description.elim "" (fun text => "<p>" ++ escape text ++ "</p>\n")
    ++ String.join (entry.endpoints.map endpointRow)
    ++ "</section>\n"

def header (catalog : Catalog) : String :=
  let stats := catalog.stats
  "<span>Generated " ++ escape (String.ofList (catalog.generatedAt.text .digits)) ++ "</span><span>"
    ++ toString stats.sources ++ " sources</span><span>" ++ toString stats.endpoints ++ " endpoints</span>"
    ++ String.join (stats.byStatus.map fun (status, count) =>
      "<span>" ++ toString count ++ " " ++ escape status ++ "</span>")

def page (catalog : Catalog) : String :=
  "<!DOCTYPE html>\n<html lang=\"en\">\n<head>\n<meta charset=\"utf-8\">\n<title>API Catalog</title>\n<style>"
    ++ style
    ++ "</style>\n</head>\n<body>\n<header>\n<h1>API Catalog</h1>\n<div class=\"stats\">"
    ++ header catalog
    ++ "</div>\n</header>\n"
    ++ "<input id=\"filter\" type=\"search\" placeholder=\"Filter by path, summary or tag\">\n<main>\n"
    ++ String.join (catalog.entries.map entrySection)
    ++ "</main>\n<script>" ++ filterScript ++ "</script>\n</body>\n</html>\n"

end ApiCatalog.Html
