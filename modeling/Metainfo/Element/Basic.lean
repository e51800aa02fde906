/-!
The elements of a metadata document that mean something, and which of them may stand in which.
-/

namespace Metainfo

/-- A meaningful element; `start` stands for the outside of all applications. -/
inductive Element where
  | start
  | application
  | id
  | pkgname
  | licence
  | name
  | summary
  | description
  | paragraph
  | unorderedList
  | unorderedItem
  | orderedList
  | orderedItem
  | url
  | group
  | keywords
  | keyword
  | extensions
  deriving DecidableEq, Repr

namespace Element

def all : List Element :=
  [.start, .application, .id, .pkgname, .licence, .name, .summary, .description, .paragraph,
    .unorderedList, .unorderedItem, .orderedList, .orderedItem, .url, .group, .keywords,
    .keyword, .extensions]

def index : Element → Nat
  | .start => 0
  | .application => 1
  | .id => 2
  | .pkgname => 3
  | .licence => 4
  | .name => 5
  | .summary => 6
  | .description => 7
  | .paragraph => 8
  | .unorderedList => 9
  | .unorderedItem => 10
  | .orderedList => 11
  | .orderedItem => 12
  | .url => 13
  | .group => 14
  | .keywords => 15
  | .keyword => 16
  | .extensions => 17

theorem all_getElem?_index (element : Element) : all[element.index]? = some element := by
  cases element <;> rfl

def text : Element → String
  | .start => "start"
  | .application => "application"
  | .id => "id"
  | .pkgname => "pkgname"
  | .licence => "licence"
  | .name => "name"
  | .summary => "summary"
  | .description => "description"
  | .paragraph => "paragraph"
  | .unorderedList => "unordered-list"
  | .unorderedItem => "unordered-list-item"
  | .orderedList => "ordered-list"
  | .orderedItem => "ordered-list-item"
  | .url => "url"
  | .group => "group"
  | .keywords => "keywords"
  | .keyword => "keyword"
  | .extensions => "extends"

def ofText? (text : String) : Option Element :=
  all.find? fun element => element.text = text

end Element

/-- A start tag that means something inside an element: the element that it opens and whether
text inside that one is gathered. -/
structure Transition where
  source : Element
  tag : String
  target : Element
  captures : Bool
  deriving DecidableEq, Repr

def vocabulary : List Transition :=
  [⟨.start, "applications", .start, false⟩,
    ⟨.start, "components", .start, false⟩,
    ⟨.start, "application", .application, false⟩,
    ⟨.start, "component", .application, false⟩,
    ⟨.application, "id", .id, true⟩,
    ⟨.application, "pkgname", .pkgname, true⟩,
    ⟨.application, "product_license", .licence, true⟩,
    ⟨.application, "name", .name, true⟩,
    ⟨.application, "summary", .summary, true⟩,
    ⟨.application, "description", .description, false⟩,
    ⟨.application, "url", .url, true⟩,
    ⟨.application, "project_group", .group, true⟩,
    ⟨.application, "keywords", .keywords, false⟩,
    ⟨.application, "extends", .extensions, true⟩,
    ⟨.description, "p", .paragraph, true⟩,
    ⟨.description, "ul", .unorderedList, false⟩,
    ⟨.description, "ol", .orderedList, false⟩,
    ⟨.unorderedList, "li", .unorderedItem, true⟩,
    ⟨.orderedList, "li", .orderedItem, true⟩,
    ⟨.keywords, "keyword", .keyword, true⟩]

end Metainfo
