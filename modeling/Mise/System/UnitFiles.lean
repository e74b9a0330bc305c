import Mise.Js.Path
import Mise.System.Substitute

set_option autoImplicit true

namespace Mise.System

open Js Server

/-- `scripts/mise-server.service` -/
def serverUnit : Text :=
  "# Install to /etc/systemd/system/mise-server.service (step 2 only).
# The self-service backend. Runs as the deploy user, bound to localhost; nginx
# reverse-proxies /api/ to it. Needs Tor (for the connection gate) and the
# server/ dependencies installed (cd server && npm ci).
[Unit]
Description=mise self-service submission backend
After=tor.service network-online.target mise-gateway.service
Wants=tor.service
# The gateway owns the shop's key and answers over a unix socket. Wants rather
# than Requires: the backend serves the catalogue and the directory perfectly
# well while the gateway is down, and reports it as unavailable where it
# matters, which beats refusing to start the whole site.
Wants=mise-gateway.service

[Service]
Type=simple
User=mise
Group=mise
WorkingDirectory=/var/www/mise/server
# BASE_URL MUST be the site's public origin (its .onion), used for the Auth47
# callback and resource. Set it to your hidden-service address.
Environment=PORT=8787
Environment=BASE_URL=http://YOURONIONADDRESS.onion
Environment=TOR_SOCKS_PORT=9050
# Comma-separated BIP47 payment codes allowed to moderate at /admin. Per-operator.
Environment=ADMIN_PAYMENT_CODES=ADMINPAYMENTCODE
ExecStart=/usr/bin/node index.mjs
Restart=on-failure
RestartSec=3

[Install]
WantedBy=multi-user.target
".toList

/-- `scripts/mise-update.service` -/
def updateUnit : Text :=
  "# Install to /etc/systemd/system/mise-update.service
# Adjust WorkingDirectory and User to match your deployment.
[Unit]
Description=Update mise directory (probe .onion nodes over Tor)
After=tor.service network-online.target
Wants=tor.service

[Service]
Type=oneshot
User=mise
Group=mise
WorkingDirectory=/var/www/mise
ExecStart=/usr/bin/node scripts/update.mjs
# Tor SOCKS proxy defaults to 127.0.0.1:9050. Override config via env if needed:
# Environment=CONCURRENCY=6
# Environment=TIMEOUT_MS=30000
".toList

/-- `deploy/nginx-onion.conf.example` -/
def nginxSite : Text :=
  "# mise — onion-only nginx config.
# nginx binds to localhost ONLY; the Tor daemon maps the hidden service's
# port 80 onto it (see the HiddenServicePort line in the README). Nothing is
# exposed on the machine's public IP except SSH.
#
# Install:
#   sudo cp deploy/nginx-onion.conf.example /etc/nginx/sites-available/mise
#   sudo ln -s /etc/nginx/sites-available/mise /etc/nginx/sites-enabled/
#   sudo rm -f /etc/nginx/sites-enabled/default
#   sudo nginx -t && sudo systemctl reload nginx
server \x7b
    listen 127.0.0.1:8080;
    server_name _;
    root /var/www/mise;
    index index.html;

    gzip on;
    gzip_types text/css text/javascript application/javascript application/json image/svg+xml text/markdown;

    # The directory data is rewritten every 10 minutes — keep it fresh.
    # This block matches everything under data/, which is why the two
    # exclusions below have to be stated: they sit inside the same directory.
    location /data/ \x7b
        add_header Cache-Control \"max-age=60\";
        default_type application/json;
    \x7d

    # Working areas of the self-updater, inside the web root only because that
    # is where the code lives. data/backups/ holds a full copy of the previous
    # tree after every self-update and nothing prunes it; data/updates/ holds
    # the staged incoming tree. Both are code rather than secrets, so this is
    # not plugging a leak, it is declining to serve an unbounded and growing
    # archive of every version this instance has ever run to anyone who guesses
    # a timestamp. The published source is data/mise-src.zip, served below,
    # and that is the only copy of the code this instance offers deliberately.
    #
    # ^~ so these win over the regex location blocks further down: a plain
    # prefix match would lose to `location ~* \\.(html|js|css|md)$` and the
    # backed-up markdown and JavaScript would be served after all.
    location ^~ /data/backups/ \x7b return 404; \x7d
    location ^~ /data/updates/ \x7b return 404; \x7d

    # Static assets and fonts can be cached for a day.
    # Code and markup must revalidate so a deploy shows up immediately.
    location ~* \\.(html|js|css|md)$ \x7b
        add_header Cache-Control \"no-cache\";
    \x7d

    # Large, rarely-changing assets can be cached for a day.
    location ~* \\.(woff2|png|svg|ico)$ \x7b
        add_header Cache-Control \"max-age=86400\";
    \x7d

    # --- self-service backend (Auth47 submission API) ---
    location /api/ \x7b
        proxy_pass http://127.0.0.1:8787;
        proxy_set_header Host $host;
        proxy_read_timeout 45s;   # the connection gate + PayNym lookup probe Tor
    \x7d

    # SECURITY: the backend's data (store.json: sessions, payment codes, node
    # API keys) and source live under server/ inside the web root. Never serve
    # them over the onion. This one IS plugging a leak, unlike the two above.
    location ^~ /server/ \x7b return 404; \x7d

    # Serve the SPA shell for the admin route (client-side view; auth is enforced
    # by the backend, this only returns the same HTML/JS).
    location = /admin \x7b try_files /index.html =404; \x7d

    location / \x7b
        try_files $uri $uri/ =404;
    \x7d
\x7d
".toList

/-- `deploy/polkit-restart.rules.example` -/
def polkitRule : Text :=
  "// mise — permission for the service account to restart its own service.
//
// The last step of a self-update is `systemctl restart mise-server.service`,
// run as the service account. systemd asks polkit whether that account may
// manage that unit, and the default answer for a system account with no session
// is no. Without this rule an update installs the new code and then stops on its
// final line: new code on disk, old process still serving it, which looks
// exactly like an update that did nothing.
//
// Install (the installer offers to do this for you), substituting your web root:
//   sudo cp /var/www/mise/deploy/polkit-restart.rules.example \\
//     /etc/polkit-1/rules.d/49-mise-restart.rules
// The .example ending is part of this file's name, not a placeholder. The
// destination name is what polkit reads.
//
// 49- so it is read before the distribution's own 50-default.rules. Nothing
// here weakens that default: a rule that returns no result falls through to it.
//
// The four conditions are all of them deliberate. One action, one unit, one
// verb, one account: this grants the right to restart mise-server.service
// and nothing else, to the service account and nobody else. It does not permit
// stop, start, enable, mask, or any other unit. An operator who wants to take
// the service down still does it as a human with sudo.
//
// polkit reads .rules files with an internal JavaScript engine (polkit 0.106
// and later, which includes every currently supported distribution). Syntax
// errors are logged by polkitd and the file is skipped, so check
// `journalctl -u polkit` after editing this by hand.
polkit.addRule(function (action, subject) \x7b
  if (action.id == \"org.freedesktop.systemd1.manage-units\" &&
      action.lookup(\"unit\") == \"mise-server.service\" &&
      action.lookup(\"verb\") == \"restart\" &&
      subject.user == \"mise\") \x7b
    return polkit.Result.YES;
  \x7d
\x7d);
".toList

/-- `SERVICE_USER` -/
def serviceUser : Text := "mise".toList

/-- The values of an installation, `none` for `null`. -/
structure UnitValues where
  user : Option Text
  webRoot : Option Text
  baseUrl : Option Text
  adminCode : Option Text

/-- A value in a template string. -/
def shown (v : Option Text) : Text := v.getD "null".toList

/-- `renderServerUnit`; joining a path that is `null` throws. -/
def renderServerUnit (template : Text) (v : UnitValues) : Option Text :=
  v.webRoot.map fun webRoot =>
    template
    |> setLine true "User=".toList (shown v.user)
    |> setLine true "Group=".toList (shown v.user)
    |> setLine false "WorkingDirectory=".toList (join [webRoot, "server".toList])
    |> setLine false "Environment=BASE_URL=".toList (shown v.baseUrl)
    |> setLine false "Environment=ADMIN_PAYMENT_CODES=".toList (shown v.adminCode)
    |> setLine false "ExecStart=".toList ("/usr/bin/env node ".toList ++
        join [webRoot, "server".toList, "index.mjs".toList])

def renderUpdateUnit (template : Text) (v : UnitValues) : Option Text :=
  v.webRoot.map fun webRoot =>
    template
    |> setLine true "User=".toList (shown v.user)
    |> setLine true "Group=".toList (shown v.user)
    |> setLine false "WorkingDirectory=".toList webRoot
    |> setLine false "ExecStart=".toList ("/usr/bin/env node ".toList ++
        join [webRoot, "scripts".toList, "update.mjs".toList])

def renderNginx (template : Text) (v : UnitValues) : Text :=
  subst (fixed "root /var/www/mise;".toList) ("root ".toList ++ shown v.webRoot ++ [';']) template

/-- `renderPolkitRule`, for the account `v.user || SERVICE_USER`. -/
def renderPolkitRule (template : Text) (v : UnitValues) : Text :=
  let user := (v.user.filter (· ≠ [])).getD serviceUser
  template
  |> subst (quoted "action.lookup(\"unit\") == \"".toList)
      "action.lookup(\"unit\") == \"mise-server.service\"".toList
  |> subst (quoted "subject.user == \"".toList) ("subject.user == \"".toList ++ user ++ ['"'])

/-- `first(/^key(.*)$/m)` -/
def first (key text : Text) : Option Text :=
  ((text.splitOnP isBreak).find? fun l => key.isPrefixOf l).map fun l => trimmed (l.drop key.length)

/-- What `\s+(\S+)\s*$` finds at the front. -/
def wordOf (s : Text) : Option Text :=
  let word := (s.dropWhile isSpace).takeWhile (!isSpace ·)
  let after := (s.dropWhile isSpace).dropWhile (!isSpace ·)
  if s.takeWhile isSpace = [] ∨ word = [] then none
  else if (after.takeWhile isSpace).any isBreak ∨ after.dropWhile isSpace = [] then some word
  else none

/-- What `.*?node\s+(\S+)\s*$` finds at the front. -/
def scriptOf : Text → Option Text
  | [] => none
  | c :: s =>
    (if "node".toList.isPrefixOf (c :: s) then wordOf ((c :: s).drop 4) else none) <|>
      if isBreak c then none else scriptOf s

/-- What `/^ExecStart=.*?node\s+(\S+)\s*$/m` finds, from a place that is a line's start or not. -/
def execFrom : Bool → Text → Option Text
  | _, [] => none
  | start, c :: s =>
    (if start && "ExecStart=".toList.isPrefixOf (c :: s) then scriptOf ((c :: s).drop 10) else none) <|>
      execFrom (isBreak c) s

/-- A text without an ending that it has. -/
def without (ending s : Text) : Option Text :=
  if ending.isSuffixOf s then some (s.take (s.length - ending.length)) else none

def recoverUnitValues (installed : Text) : UnitValues :=
  let wd := first "WorkingDirectory=".toList installed
  let exec := (execFrom true installed).map trimmed
  let webRoot := exec.bind (without "/server/index.mjs".toList) <|>
    exec.bind (without "/scripts/update.mjs".toList) <|>
    (wd.filter (· ≠ [])).map fun wd => (without "/server".toList wd).getD wd
  { user := (first "User=".toList installed).filter (· ≠ [])
    webRoot := webRoot.filter (· ≠ [])
    baseUrl := first "Environment=BASE_URL=".toList installed
    adminCode := first "Environment=ADMIN_PAYMENT_CODES=".toList installed }

/-- `[1-9A-HJ-NP-Za-km-z]` -/
def base58 (c : Char) : Bool :=
  c.isAlphanum && c ≠ '0' && c ≠ 'I' && c ≠ 'O' && c ≠ 'l'

def isPaymentCode (v : Text) : Bool :=
  "PM8T".toList.isPrefixOf v && v.length = 116 && v.all base58

/-- `v.replace(/^https?:\/\//, "")` -/
def withoutScheme (v : Text) : Text :=
  if "https://".toList.isPrefixOf v then v.drop 8
  else if "http://".toList.isPrefixOf v then v.drop 7
  else v

/-- `v.replace(/\/.*$/, "")` -/
def withoutPath : Text → Text
  | [] => []
  | c :: s => if c = '/' && s.all (!isBreak ·) then [] else c :: withoutPath s

def isOnionHost (v : Text) : Bool :=
  let host := withoutPath (withoutScheme (trimmed v))
  (host.take 56).all (fun c => c.isLower || ('2' ≤ c && c ≤ '7')) && host.drop 56 = ".onion".toList

/-- What the installer lets through: a web root that its form has trimmed, a host that `tor` has named,
and a payment code. -/
structure Accepted (webRoot host adminCode : Text) : Prop where
  root_trimmed : trimmed webRoot = webRoot
  root_typed : '\n' ∉ webRoot ∧ '\r' ∉ webRoot
  root_absolute : webRoot.head? = some '/'
  host_trimmed : trimmed host = host
  host_onion : isOnionHost host = true
  code : isPaymentCode adminCode = true

/-- The values that the installer renders. -/
def installedValues (webRoot host adminCode : Text) : UnitValues where
  user := some serviceUser
  webRoot := some webRoot
  baseUrl := some ("http://".toList ++ host)
  adminCode := some adminCode

/-- The values that are recovered from the rendered backend unit render every file alike. -/
def Survives (v : UnitValues) : Prop :=
  ∃ unit, renderServerUnit serverUnit v = some unit ∧
    renderServerUnit serverUnit (recoverUnitValues unit) = some unit ∧
    renderUpdateUnit updateUnit (recoverUnitValues unit) = renderUpdateUnit updateUnit v ∧
    renderNginx nginxSite (recoverUnitValues unit) = renderNginx nginxSite v ∧
    renderPolkitRule polkitRule (recoverUnitValues unit) = renderPolkitRule polkitRule v

end Mise.System
